/-
What the digest of a closure tells.

A module is written without marks between most of its fields, so equal texts may be cut in
several ways: they come from the same modules exactly when they are cut in the same places.
Any program whose modules have facts or imports is also written as one source with nothing
but rewrites.
-/
import Beagle.Proofs.Closures

namespace Beagle.Parser

open Beagle.FrontendFacts List
open Beagle.Native (Sha256)
open Beagle.Lib (Utf8.encode Utf8.encode_injective)
open Beagle.Lib.Cycles
open Beagle.Lib.Digits
open Beagle.Lib.Frames (encode_append)

/-! ### Where a text is cut -/

/-- How many bytes a field takes. -/
def size (text : String) : Nat := (Utf8.encode text).length

def spanSize (span : SourceSpan) : Nat := size span.path

/-- A text has a length of its own, and every other value but a node a fixed form. -/
def valueSize : FactValue → Nat
  | .nodeRef nodeId => size nodeId
  | _ => 0

def factSizes (row : CompilerFact) : Nat × Nat × Nat × Option Nat :=
  (size row.relation, size row.subject, valueSize row.value, row.span.map spanSize)

def importSizes (edge : ImportEdgeFact) : Nat × Nat × Option Nat × List Nat × Nat :=
  (size edge.importer, size edge.required, edge.aliasName.map size, edge.referred.map size,
    spanSize edge.span)

def rewriteSizes (rewrite : MacroRewriteFact) : Nat × Nat × Nat × Nat :=
  (size rewrite.macroId, size rewrite.inputNode, size rewrite.resultNode, spanSize rewrite.span)

/-- The sizes of the fields of a module, and of which there are how many. -/
structure ModuleSizes where
  path : Nat
  namespaceName : Option Nat
  sourceDigest : Nat
  profile : Nat
  facts : List (Nat × Nat × Nat × Option Nat)
  imports : List (Nat × Nat × Option Nat × List Nat × Nat)
  rewrites : List (Nat × Nat × Nat × Nat)

def moduleSizes (bundle : SyntaxFactBundle) : ModuleSizes where
  path := size bundle.path
  namespaceName := bundle.namespaceName.map size
  sourceDigest := size bundle.sourceDigest
  profile := size bundle.profile
  facts := bundle.facts.map factSizes
  imports := bundle.imports.map importSizes
  rewrites := bundle.rewrites.map rewriteSizes

/-! ### Equal texts cut in the same places -/

theorem text_inj {a b x y : String} (hs : size a = size b) (h : a ++ x = b ++ y) :
    a = b ∧ x = y := by
  have hbs := congrArg Utf8.encode h
  rw [encode_append, encode_append] at hbs
  obtain ⟨hab, hxy⟩ := append_inj hbs hs
  exact ⟨Utf8.encode_injective hab, Utf8.encode_injective hxy⟩

variable {x y : String} {α : Type} {ma : String} {β : Type} {el : α → String}

theorem mark_inj (h : ma ++ x = ma ++ y) : x = y := (text_inj rfl h).2

/-- A number is told by the mark behind it. -/
theorem int_inj {m n : Int} {ma : Char} {x y : String} (hdig : ma.isDigit = false)
    (hs : ma ≠ '-') (h : toString m ++ (String.singleton ma ++ x) =
      toString n ++ (String.singleton ma ++ y)) :
    m = n ∧ x = y := by
  have hnot : ∀ k : Int, ma ∉ (toString k).toList :=
    fun k => notMem_toString_int k hdig hs
  rw [← String.append_assoc, ← String.append_assoc] at h
  obtain ⟨hmn, hxy⟩ := mark_split (hnot m) (hnot n) h
  exact ⟨toString_int_injective hmn, hxy⟩

theorem bar_inj {m n : Int} (h : toString m ++ ("|" ++ x) = toString n ++ ("|" ++ y)) :
    m = n ∧ x = y := @int_inj m n '|' x y (by decide) (by decide) h

theorem int_colon_inj {m n : Int} {x y : String}
    (h : toString m ++ (":" ++ x) = toString n ++ (":" ++ y)) : m = n ∧ x = y :=
  @int_inj m n ':' x y (by decide) (by decide) h

/-- The encoding of a value is cut off the front of a text, where the shape is known. -/
def Told {α β : Type} (encoding : α → String) (shape : α → β) : Prop :=
  ∀ a b x y, shape a = shape b → encoding a ++ x = encoding b ++ y → a = b ∧ x = y

theorem foldl_encodeLine (el : α → String) (rows : List α) (fr : String) :
    rows.foldl (fun t row => t ++ el row) fr = fr ++ encodeAll el rows := by
  unfold encodeAll
  induction rows generalizing fr with
  | nil => exact String.append_empty.symm
  | cons row rows ih =>
    rw [foldl_cons, foldl_cons, ih, ih ("" ++ _), String.empty_append, String.append_assoc]

theorem encodeAll_cons (el : α → String) (row : α) (rows : List α) :
    encodeAll el (row :: rows) = el row ++ encodeAll el rows := by
  show rows.foldl _ ("" ++ el row) = _
  rw [foldl_encodeLine, String.empty_append]

theorem told_all {sh : α → β} (h : Told el sh) : Told (encodeAll el) (List.map sh) := by
  intro rs
  induction rs with
  | nil =>
    intro os x y hs heq
    obtain rfl := map_eq_nil_iff.mp hs.symm
    exact ⟨rfl, mark_inj heq⟩
  | cons row rs ih =>
    intro os x y hs heq
    cases os with
    | nil => simp at hs
    | cons o os =>
      obtain ⟨hrow, hro⟩ := List.cons.inj hs
      rw [encodeAll_cons, encodeAll_cons, String.append_assoc, String.append_assoc] at heq
      obtain ⟨rfl, hm⟩ := h row o _ _ hrow heq
      obtain ⟨rfl, hr⟩ := ih os x y hro hm
      exact ⟨rfl, hr⟩

theorem encodeSpan_told {a b : SourceSpan} (hm : ma = "|" ∨ ma = "\n")
    (hs : spanSize a = spanSize b)
    (h : encodeSpan a ++ (ma ++ x) = encodeSpan b ++ (ma ++ y)) : a = b ∧ x = y := by
  unfold encodeSpan at h
  simp only [String.append_assoc] at h
  obtain ⟨hp, h⟩ := text_inj hs h
  obtain ⟨hst, h⟩ := int_colon_inj (mark_inj h)
  obtain ⟨hfin, h⟩ := int_colon_inj h
  obtain ⟨hl, h⟩ := int_colon_inj h
  have hcol : a.column = b.column ∧ x = y := by
    rcases hm with rfl | rfl
    · exact bar_inj h
    · exact @int_inj _ _ '\n' x y (by decide) (by decide) h
  obtain ⟨hcol, hr⟩ := hcol
  cases a
  cases b
  simp only at hp hst hfin hl hcol
  exact ⟨by rw [hp, hst, hfin, hl, hcol], hr⟩

theorem encodeValue_told {a b : FactValue} (hs : valueSize a = valueSize b)
    (h : encodeValue a ++ ("|" ++ x) = encodeValue b ++ ("|" ++ y)) : a = b ∧ x = y := by
  have hh := congrArg (fun text : String => text.toList.head?) h
  have hsnd := congrArg (fun text : String => text.toList.drop 2) h
  cases a with
  | nodeRef a =>
    cases b with
    | nodeRef b =>
      simp only [encodeValue, String.append_assoc] at h
      obtain ⟨rfl, hr⟩ := text_inj hs (mark_inj h)
      exact ⟨rfl, mark_inj hr⟩
    | text _ | int _ | nil => simp [encodeValue] at hh
    | bool b => cases b <;> simp [encodeValue] at hh
  | text a =>
    cases b with
    | text b =>
      simp only [encodeValue, String.append_assoc] at h
      obtain ⟨hlen, hr⟩ := @int_colon_inj (Utf8.encode a).length (Utf8.encode b).length
        _ _ (mark_inj h)
      obtain ⟨ht, hm⟩ := text_inj (Int.ofNat.inj hlen) hr
      exact ⟨congrArg FactValue.text ht, mark_inj hm⟩
    | nodeRef _ | int _ | nil => simp [encodeValue] at hh
    | bool b => cases b <;> simp [encodeValue] at hh
  | bool a =>
    cases b with
    | bool b =>
      cases a <;> cases b
      · exact ⟨rfl, mark_inj (mark_inj h)⟩
      · simp [encodeValue] at hsnd
      · simp [encodeValue] at hsnd
      · exact ⟨rfl, mark_inj (mark_inj h)⟩
    | nodeRef _ | text _ | int _ | nil => cases a <;> simp [encodeValue] at hh
  | int a =>
    cases b with
    | int b =>
      simp only [encodeValue, String.append_assoc] at h
      obtain ⟨rfl, hr⟩ := bar_inj (mark_inj h)
      exact ⟨rfl, hr⟩
    | nodeRef _ | text _ | nil => simp [encodeValue] at hh
    | bool b => cases b <;> simp [encodeValue] at hh
  | nil =>
    cases b with
    | nil => exact ⟨rfl, mark_inj (mark_inj h)⟩
    | nodeRef _ | text _ | int _ => simp [encodeValue] at hh
    | bool b => cases b <;> simp [encodeValue] at hh

theorem encodeOptionalSpan_told {a b : Option SourceSpan} (hs : a.map spanSize = b.map spanSize)
    (h : encodeOptionalSpan a ++ ("\n" ++ x) = encodeOptionalSpan b ++ ("\n" ++ y)) :
    a = b ∧ x = y := by
  cases a with
  | none =>
    cases b with
    | none => exact ⟨rfl, mark_inj (mark_inj h)⟩
    | some b => simp at hs
  | some a =>
    cases b with
    | none => simp at hs
    | some b =>
      obtain ⟨rfl, hr⟩ := encodeSpan_told (Or.inr rfl) (Option.some.inj hs) h
      exact ⟨rfl, hr⟩

theorem encodeFact_told : Told encodeFact factSizes := by
  intro a b x y hsh h
  simp only [factSizes, Prod.mk.injEq] at hsh
  obtain ⟨hrel, hsu, hval, hs⟩ := hsh
  unfold encodeFact at h
  simp only [String.append_assoc] at h
  obtain ⟨hord, h⟩ := bar_inj h
  obtain ⟨hrel, h⟩ := text_inj hrel (mark_inj h)
  obtain ⟨hsu, h⟩ := text_inj hsu (mark_inj h)
  obtain ⟨hsl, h⟩ := bar_inj (mark_inj h)
  obtain ⟨hval, h⟩ := encodeValue_told hval h
  obtain ⟨hs, hr⟩ := encodeOptionalSpan_told hs h
  cases a
  cases b
  simp only at hord hrel hsu hsl hval hs
  exact ⟨by rw [hord, hrel, hsu, hsl, hval, hs], hr⟩

/-- Names with commas between them. -/
theorem intercalate_told {ns os : List String} (hs : ns.map size = os.map size)
    (h : ",".intercalate ns ++ x = ",".intercalate os ++ y) : ns = os ∧ x = y := by
  have hc : ∀ (n next : String) (m : List String),
      ",".intercalate (n :: next :: m) = n ++ ("," ++ ",".intercalate (next :: m)) := by
    intro n next m
    rw [String.intercalate_cons_cons, String.append_assoc]
  induction ns generalizing os with
  | nil =>
    obtain rfl := map_eq_nil_iff.mp hs.symm
    exact ⟨rfl, mark_inj h⟩
  | cons n ns ih =>
    cases os with
    | nil => simp at hs
    | cons o os =>
      obtain ⟨hsiz, hsi⟩ := List.cons.inj hs
      cases ns with
      | nil =>
        obtain rfl := map_eq_nil_iff.mp hsi.symm
        obtain ⟨rfl, hr⟩ := text_inj hsiz h
        exact ⟨rfl, hr⟩
      | cons next ns =>
        cases os with
        | nil => simp at hsi
        | cons n' os =>
          rw [hc, hc] at h
          simp only [String.append_assoc] at h
          obtain ⟨rfl, hn⟩ := text_inj hsiz h
          obtain ⟨hm, hr⟩ := ih hsi (mark_inj hn)
          exact ⟨by rw [hm], hr⟩

theorem encodeAlias_told {a b : Option String} (hs : a.map size = b.map size)
    (h : a.getD "" ++ x = b.getD "" ++ y) : a = b ∧ x = y := by
  cases a with
  | none =>
    cases b with
    | none => exact ⟨rfl, mark_inj h⟩
    | some b => simp at hs
  | some a =>
    cases b with
    | none => simp at hs
    | some b =>
      obtain ⟨hab, hr⟩ := @text_inj a b _ _ (Option.some.inj hs) h
      exact ⟨congrArg some hab, hr⟩

theorem encodeImport_told : Told encodeImport importSizes := by
  intro a b x y hsh h
  simp only [importSizes, Prod.mk.injEq] at hsh
  obtain ⟨himp, hreq, ha, href, hs⟩ := hsh
  unfold encodeImport at h
  simp only [String.append_assoc] at h
  obtain ⟨hord, h⟩ := bar_inj h
  obtain ⟨himp, h⟩ := text_inj himp h
  obtain ⟨hreq, h⟩ := text_inj hreq (mark_inj h)
  obtain ⟨ha, h⟩ := encodeAlias_told ha (mark_inj h)
  obtain ⟨href, h⟩ := intercalate_told href (mark_inj h)
  obtain ⟨hs, hr⟩ := encodeSpan_told (Or.inr rfl) hs (mark_inj h)
  cases a
  cases b
  simp only at hord himp hreq ha href hs
  exact ⟨by rw [hord, himp, hreq, ha, href, hs], hr⟩

theorem encodeRewrite_told : Told encodeRewrite rewriteSizes := by
  intro a b x y hsh h
  simp only [rewriteSizes, Prod.mk.injEq] at hsh
  obtain ⟨ho, hi, hres, hs⟩ := hsh
  unfold encodeRewrite at h
  simp only [String.append_assoc] at h
  obtain ⟨hord, h⟩ := bar_inj h
  obtain ⟨ho, h⟩ := text_inj ho h
  obtain ⟨hi, h⟩ := text_inj hi (mark_inj h)
  obtain ⟨hres, h⟩ := text_inj hres (mark_inj h)
  obtain ⟨hs, hr⟩ := encodeSpan_told (Or.inr rfl) hs (mark_inj h)
  cases a
  cases b
  simp only at hord ho hi hres hs
  exact ⟨by rw [hord, ho, hi, hres, hs], hr⟩

theorem encodeModule_told : Told encodeModule moduleSizes := by
  intro a b x y hs h
  simp only [moduleSizes, ModuleSizes.mk.injEq] at hs
  obtain ⟨hp, hn, hdig, hpr, hf, hi, hr⟩ := hs
  unfold encodeModule at h
  simp only [String.append_assoc] at h
  obtain ⟨hp, h⟩ := text_inj hp (mark_inj h)
  obtain ⟨hn, h⟩ := encodeAlias_told hn (mark_inj h)
  obtain ⟨hlen, h⟩ := @int_colon_inj (Utf8.encode a.sourceText).length
    (Utf8.encode b.sourceText).length _ _ (mark_inj h)
  obtain ⟨ht, h⟩ := text_inj (Int.ofNat.inj hlen) h
  obtain ⟨hdig, h⟩ := text_inj hdig (mark_inj h)
  obtain ⟨hpr, h⟩ := text_inj hpr (mark_inj h)
  obtain ⟨hf, h⟩ := told_all encodeFact_told _ _ _ _ hf (mark_inj h)
  obtain ⟨hi, h⟩ := told_all encodeImport_told _ _ _ _ hi h
  obtain ⟨hr, hre⟩ := told_all encodeRewrite_told _ _ _ _ hr h
  cases a
  cases b
  simp only at hp hn ht hdig hpr hf hi hr
  exact ⟨by rw [hp, hn, ht, hdig, hpr, hf, hi, hr], hre⟩

/-! ### The text of a closure -/

/-- The text of which a closure's digest is made. -/
def encodeModules (modules : List SyntaxFactBundle) : String :=
  String.join (modules.map encodeModule)

theorem encodeModules_eq (modules : List SyntaxFactBundle) :
    encodeModules modules = encodeAll encodeModule modules := by
  unfold encodeModules encodeAll String.join
  rw [foldl_map]

/-- **Equal texts cut in the same places are of the same modules.** -/
theorem modules_of_text {ms others : List SyntaxFactBundle}
    (hs : ms.map moduleSizes = others.map moduleSizes)
    (h : encodeModules ms = encodeModules others) : ms = others := by
  rw [encodeModules_eq, encodeModules_eq] at h
  refine (told_all encodeModule_told ms others "" "" hs ?_).1
  rw [h]

/-! ### The entry comes last -/

variable {req : ExplicitFactBundle}

/-- Everything is reached from the entry, so nothing comes behind it. -/
theorem entry_last (hc : Closes req)
    {os : List ExplicitFactSource} (hord : Ordered req.sources os)
    (hp : os.Perm req.sources) :
    ∃ fr e, os = fr ++ [e] ∧ e.path = req.entryPath := by
  obtain ⟨e, hent, hpa, hr⟩ := hc.reached
  rcases eq_nil_or_concat os with rfl | ⟨fr, l, rfl⟩
  · exact absurd (nil_perm.mp hp) hc.nonempty
  rw [concat_eq_append] at hord hp ⊢
  refine ⟨fr, l, rfl, ?_⟩
  have hl : l ∈ req.sources :=
    hp.mem_iff.mp (mem_append_right _ mem_cons_self)
  rcases Relation.ReflTransGen.cases_tail (hr l hl) with hs | ⟨i, hf, hi⟩
  · exact hs ▸ hpa
  · -- what imports the last source comes behind it
    have hmem : i ∈ req.sources := by
      rcases Relation.ReflTransGen.cases_tail hf with rfl | ⟨_, -, h⟩
      · exact hent
      · exact h.1
    exfalso
    rcases List.mem_append.mp (hp.mem_iff.mpr hmem) with hfr | hsgl
    · obtain ⟨b, a, rfl⟩ := append_of_mem hfr
      have hle := hord.least b i (a ++ [l]) (by simp)
      have hre := (dependenciesSelected_iff hc.namespaces (hc.valid i hmem)).mp hle.2.1.2 l hi
      have hnd := hord.nodup
      rw [append_assoc, map_append] at hnd
      exact (nodup_append.mp hnd).2.2 _ hre _ (mem_map_of_mem (by simp)) rfl
    · rw [mem_singleton.mp hsgl] at hi
      exact hc.acyclic l hl (.single hi)

/-! ### A program as one source -/

theorem encodeAll_append (el : α → String) (rs others : List α) : encodeAll el (rs ++ others) =
      encodeAll el rs ++ encodeAll el others := by
  rw [encodeAll, foldl_append]
  exact foldl_encodeLine el others _

theorem encodeAll_map {eo : β → String} {f : α → β} {rows : List α}
    (h : ∀ row ∈ rows, eo (f row) = el row) :
    encodeAll eo (rows.map f) = encodeAll el rows := by
  unfold encodeAll
  rw [foldl_map]
  refine foldl_ext _ _ _ ?_
  intro t row hrow
  rw [h row hrow]

/-- The rewrite that is written as the fact is. -/
def rewriteOfFact (row : CompilerFact) : MacroRewriteFact where
  order := row.order
  macroId := ":" ++ row.relation
  inputNode := row.subject
  resultNode := toString row.slot ++ "|" ++ encodeValue row.value
  span := row.span.getD (defaultSpan "")

/-- The rewrite that is written as the import is. -/
def rewriteOfImport (edge : ImportEdgeFact) : MacroRewriteFact where
  order := edge.order
  macroId := edge.importer
  inputNode := edge.required
  resultNode := edge.aliasName.getD "" ++ "|" ++ ",".intercalate edge.referred
  span := edge.span

theorem encodeRewrite_fact {row : CompilerFact} {s : SourceSpan} (h : row.span = some s) :
    encodeRewrite (rewriteOfFact row) = encodeFact row := by
  unfold encodeRewrite rewriteOfFact encodeFact
  simp only [h, Option.getD_some, encodeOptionalSpan, String.append_assoc]

theorem encodeRewrite_import (edge : ImportEdgeFact) :
    encodeRewrite (rewriteOfImport edge) = encodeImport edge := by
  unfold encodeRewrite rewriteOfImport encodeImport
  simp only [String.append_assoc]

/-- A module behind a text, as one source with nothing but rewrites. -/
def loneSource (front : String) (bundle : SyntaxFactBundle) : SyntaxFactBundle :=
  { bundle with
    path := front ++ bundle.path
    facts := []
    imports := []
    rewrites := bundle.facts.map rewriteOfFact ++ bundle.imports.map rewriteOfImport ++
      bundle.rewrites }

theorem encodeModule_loneSource (fr : String) {b : SyntaxFactBundle}
    (h : ∀ row ∈ b.facts, ValidFact b row) :
    ∃ r, encodeModule b = "module|" ++ r ∧
      encodeModule (loneSource fr b) = "module|" ++ (fr ++ r) := by
  have hf : encodeAll encodeRewrite (b.facts.map rewriteOfFact) = encodeAll encodeFact b.facts := by
    refine encodeAll_map fun row hrow => ?_
    obtain ⟨s, hs, -⟩ := (h row hrow).span
    exact encodeRewrite_fact hs
  have hi : encodeAll encodeRewrite (b.imports.map rewriteOfImport) =
      encodeAll encodeImport b.imports :=
    encodeAll_map fun e _ => encodeRewrite_import e
  unfold encodeModule loneSource
  dsimp only
  rw [encodeAll_append, encodeAll_append, hf, hi]
  simp only [encodeAll, foldl_nil, String.append_assoc, String.empty_append]
  exact ⟨_, rfl, rfl⟩

/-- One source without facts and imports closes if it has a namespace and a fit profile. -/
theorem closes_lone {b : SyntaxFactBundle} (hn : b.namespaceName ≠ none)
    (hp : ∃ e ∈ profiles, Utf8.encode e.1 <:+ Utf8.encode b.path ∧
      b.profile = e.2) (hf : b.facts = []) (hi : b.imports = []) :
    Closes ⟨b.path, [⟨b, .package⟩]⟩ where
  nonempty := cons_ne_nil _ _
  paths := nodup_singleton _
  namespaces := nodup_singleton _
  valid := by
    intro s hsrc
    obtain rfl := mem_singleton.mp hsrc
    refine ⟨hn, hp, ?_, ?_⟩
    · intro row hrow
      rw [hf] at hrow
      exact absurd hrow not_mem_nil
    · intro ed he
      rw [show ExplicitFactSource.imports ⟨b, .package⟩ = [] from hi] at he
      exact absurd he not_mem_nil
  reached := by
    refine ⟨_, mem_cons_self, rfl, ?_⟩
    intro s hsrc
    obtain rfl := mem_singleton.mp hsrc
    exact .refl
  acyclic := by
    intro s hsrc hcyc
    obtain rfl := mem_singleton.mp hsrc
    obtain ⟨next, hs, -⟩ := Relation.TransGen.head'_iff.mp hcyc
    obtain ⟨-, ed, he, -⟩ := hs
    rw [show ExplicitFactSource.imports ⟨b, .package⟩ = [] from hi] at he
    exact absurd he not_mem_nil

/-- The text before the last module, less the mark at its start. -/
theorem exists_front (modules : List SyntaxFactBundle) : ∃ front, ∀ rest,
    "module|" ++ (front ++ rest) = encodeModules modules ++ ("module|" ++ rest) := by
  cases modules with
  | nil =>
    refine ⟨"", fun rest => ?_⟩
    rw [encodeModules_eq, String.empty_append]
    exact String.empty_append.symm
  | cons first more =>
    obtain ⟨text, htext⟩ : ∃ text, encodeModule first = "module|" ++ text := by
      unfold encodeModule
      simp only [String.append_assoc]
      exact ⟨_, rfl⟩
    refine ⟨text ++ (encodeModules more ++ "module|"), fun rest => ?_⟩
    rw [encodeModules_eq (first :: more), encodeAll_cons, htext, encodeModules_eq more]
    simp only [String.append_assoc]

/-- **A program that is accepted is written as one source with nothing but rewrites, which is
accepted too.** -/
theorem exists_lone {sha : Sha256} {cl : SyntaxFactClosure}
    (h : parseExplicitBundle sha req = .parsed cl) :
    ∃ b o, b.facts = [] ∧ b.imports = [] ∧
      parseExplicitBundle sha ⟨b.path, [⟨b, .package⟩]⟩ = .parsed o ∧
      o.modules = [b] ∧ encodeModules [b] = encodeModules cl.modules ∧
      o.closureDigest = cl.closureDigest := by
  obtain ⟨hc, os, -, hord, hp, rfl⟩ := parseExplicitBundle_parsed h
  obtain ⟨pre, e, rfl, -⟩ := entry_last hc hord hp
  have hent : e ∈ req.sources :=
    hp.mem_iff.mp (mem_append_right _ mem_cons_self)
  have hv := hc.valid e hent
  obtain ⟨fr, hfr⟩ := exists_front (pre.map ExplicitFactSource.bundle)
  obtain ⟨r, het, hlt⟩ := encodeModule_loneSource fr hv.facts
  have ht : encodeModules [loneSource fr e.bundle] =
      encodeModules ((pre ++ [e]).map ExplicitFactSource.bundle) := by
    rw [encodeModules_eq, encodeModules_eq, encodeAll_cons, hlt, map_append,
      encodeAll_append, map_singleton, encodeAll_cons, het, hfr, encodeModules_eq,
      String.append_assoc]
  have hpr : ∃ p ∈ profiles, Utf8.encode p.1 <:+ Utf8.encode (loneSource fr e.bundle).path ∧
        (loneSource fr e.bundle).profile = p.2 := by
    obtain ⟨p, hmem, hs, hsa⟩ := hv.profile
    refine ⟨p, hmem, ?_, hsa⟩
    show _ <:+ Utf8.encode (fr ++ e.bundle.path)
    rw [encode_append]
    exact hs.trans (suffix_append _ _)
  have hl := @closes_lone (loneSource fr e.bundle) hv.name hpr rfl rfl
  rcases parseExplicitBundle_cases sha ⟨(loneSource fr e.bundle).path,
    [⟨loneSource fr e.bundle, .package⟩]⟩ with
    ⟨-, os, -, -, hsgl, hpars⟩ | ⟨hopen, -⟩
  · obtain rfl := perm_singleton.mp hsgl
    refine ⟨loneSource fr e.bundle, _, rfl, rfl, hpars, rfl, ht, ?_⟩
    exact congrArg (digestText sha) ht
  · exact absurd hl hopen

/-- The bytes of which a closure's digest is made. -/
def closureBytes (closure : SyntaxFactClosure) : List UInt8 :=
  Utf8.encode (encodeModules closure.modules)

/-- **The digest of a closure tells the program when it is cut as the other is, and only then.**
Without a collision two accepted bundles of one digest have the same entry and the same modules
in the same order exactly when the sizes of their fields agree; and every accepted program whose
modules have facts or imports shares its digest with another. -/
theorem digests_tell (sha : Sha256) :
    (∀ request other closure closure', parseExplicitBundle sha request = .parsed closure →
      parseExplicitBundle sha other = .parsed closure' →
      Set.InjOn sha.bytes {closureBytes closure, closureBytes closure'} →
      closure.closureDigest = closure'.closureDigest →
        ((closure.entryPath = closure'.entryPath ∧ closure.modules = closure'.modules) ↔
          closure.modules.map moduleSizes = closure'.modules.map moduleSizes)) ∧
    (∀ request closure, parseExplicitBundle sha request = .parsed closure →
      (∃ bundle ∈ closure.modules, bundle.facts ≠ [] ∨ bundle.imports ≠ []) →
      ∃ other closure', parseExplicitBundle sha other = .parsed closure' ∧
        closure'.closureDigest = closure.closureDigest ∧ closure'.modules ≠ closure.modules) := by
  refine ⟨?_, ?_⟩
  · intro request other closure closure' h h' hinj hdig
    refine ⟨fun hs => congrArg _ hs.2, fun hsi => ?_⟩
    have ht : encodeModules closure.modules = encodeModules closure'.modules := by
      obtain ⟨-, os, -, -, -, rfl⟩ := parseExplicitBundle_parsed h
      obtain ⟨-, os', -, -, -, rfl⟩ := parseExplicitBundle_parsed h'
      have hc := congrArg String.toList
        (show digestText sha (encodeModules _) = digestText sha (encodeModules _) from hdig)
      unfold digestText at hc
      rw [String.toList_append, String.toList_append] at hc
      exact Utf8.encode_injective (hinj (Set.mem_insert _ _)
        (Set.mem_insert_of_mem _ (Set.mem_singleton _))
        (String.toList_injective (append_cancel_left hc)))
    have hm := modules_of_text hsi ht
    refine ⟨?_, hm⟩
    obtain ⟨hcl, os, -, hord, hpe, rfl⟩ := parseExplicitBundle_parsed h
    obtain ⟨hc', os', -, hord', hp', rfl⟩ := parseExplicitBundle_parsed h'
    obtain ⟨fr, e, rfl, hent⟩ := entry_last hcl hord hpe
    obtain ⟨fr', e', rfl, hent'⟩ := entry_last hc' hord' hp'
    have hl : (fr ++ [e]).map ExplicitFactSource.bundle =
        (fr' ++ [e']).map ExplicitFactSource.bundle := hm
    rw [map_append, map_append] at hl
    obtain ⟨-, hb⟩ := append_inj' hl rfl
    show request.entryPath = other.entryPath
    rw [← hent, ← hent']
    exact congrArg SyntaxFactBundle.path (List.cons.inj hb).1
  · intro request closure h hmo
    obtain ⟨bundle, other, hfa, hi, hp, hm, -, hdig⟩ := exists_lone h
    refine ⟨_, other, hp, hdig, ?_⟩
    intro hs
    rw [hm] at hs
    obtain ⟨fd, hf, hrows⟩ := hmo
    rw [← hs, mem_singleton] at hf
    rw [hf] at hrows
    rcases hrows with hrows | hrows
    · exact hrows hfa
    · exact hrows hi

/-! ### An alias that is missing -/

/-- A source that imports another, with or without an alias. -/
def importing (aliasName : Option String) : ExplicitFactSource where
  bundle :=
    { path := "a.bgl"
      namespaceName := some "a"
      sourceText := ""
      sourceDigest := ""
      profile := "native-core"
      facts := []
      imports := [⟨0, "a", "b", aliasName, [], ⟨"a.bgl", 0, 0, 0, 0⟩⟩]
      rewrites := [] }
  authority := .package

def imported : ExplicitFactSource where
  bundle :=
    { path := "b.bgl"
      namespaceName := some "b"
      sourceText := ""
      sourceDigest := ""
      profile := "native-core"
      facts := []
      imports := []
      rewrites := [] }
  authority := .package

theorem closes_importing (an : Option String) : Closes ⟨"a.bgl", [importing an, imported]⟩ := by
  have hmem : ∀ s ∈ [importing an, imported], s = importing an ∨ s = imported := by
    intro s hsrc
    simpa using hsrc
  have hp : ∀ p : String, Utf8.encode ".bgl" <:+ Utf8.encode p →
      ∃ e ∈ profiles, Utf8.encode e.1 <:+ Utf8.encode p ∧ "native-core" = e.2 :=
    fun p hpa => ⟨_, mem_cons_self, hpa, rfl⟩
  refine ⟨cons_ne_nil _ _, ?_, ?_, ?_, ?_, ?_⟩
  · show ["a.bgl", "b.bgl"].Nodup
    decide
  · simp [ExplicitFactSource.namespaceName, importing, imported]
  · intro s hsrc
    rcases hmem s hsrc with rfl | rfl
    · refine ⟨Option.some_ne_none _, hp "a.bgl" (by decide),
        forall_mem_nil _, ?_⟩
      intro ed he
      obtain rfl := mem_singleton.mp he
      exact ⟨rfl, ⟨rfl, Int.le_refl _, Int.le_refl _, Int.le_refl _, Int.le_refl _⟩, imported,
        mem_cons_of_mem _ mem_cons_self, rfl, nofun⟩
    · exact ⟨Option.some_ne_none _, hp "b.bgl" (by decide),
        forall_mem_nil _, forall_mem_nil _⟩
  · refine ⟨importing an, mem_cons_self, rfl, fun s hsrc => ?_⟩
    rcases hmem s hsrc with rfl | rfl
    · exact .refl
    · exact .single ⟨hsrc, _, mem_cons_self, rfl⟩
  · intro s hsrc
    refine @not_onCycle_of_falls _ (Imports [importing an, imported]) s
      (fun s => s.imports.length) (fun s => s ∈ [importing an, imported])
      ?_ hsrc
    rintro a b ha ⟨hb, ed, he, hn⟩
    refine ⟨hb, ?_⟩
    rcases hmem a ha with rfl | rfl
    · obtain rfl := mem_singleton.mp he
      rcases hmem b hb with rfl | rfl
      · exact absurd (show "a" = "b" from Option.some.inj hn) (by decide)
      · exact Nat.zero_lt_one
    · exact absurd he not_mem_nil

/-- A missing alias and an empty one are written alike. -/
theorem alias_not_told : ¬ ∃ sha : Sha256, ∀ request other closure closure',
    parseExplicitBundle sha request = .parsed closure →
    parseExplicitBundle sha other = .parsed closure' →
    Set.InjOn sha.bytes {closureBytes closure, closureBytes closure'} →
    closure.closureDigest = closure'.closureDigest → closure.modules = closure'.modules := by
  rintro ⟨sha, h⟩
  have hpa : ∀ aliasName, ∃ closure, parseExplicitBundle sha
      ⟨"a.bgl", [importing aliasName, imported]⟩ = .parsed closure ∧
        closure.modules = [imported.bundle, (importing aliasName).bundle] := by
    intro aliasName
    rcases parseExplicitBundle_cases sha ⟨"a.bgl", [importing aliasName, imported]⟩ with
      ⟨hc, os, -, hord, hp, hres⟩ | ⟨ho, -⟩
    · refine ⟨_, hres, ?_⟩
      obtain ⟨fr, e, rfl, hpat⟩ := entry_last hc hord hp
      have hent : e = importing aliasName := by
        have hmem := hp.mem_iff.mp (mem_append_right fr mem_cons_self)
        simp only [mem_cons, not_mem_nil, or_false] at hmem
        rcases hmem with rfl | rfl
        · rfl
        · exact absurd (show "b.bgl" = "a.bgl" from hpat) (by decide)
      have hfr : fr = [imported] := by
        rw [hent] at hp
        exact perm_singleton.mp ((perm_append_singleton _ _).symm.trans hp).cons_inv
      rw [hent, hfr]
      rfl
    · exact absurd (closes_importing aliasName) ho
  obtain ⟨closure, hcl, hm⟩ := hpa none
  obtain ⟨closure', hc', hm'⟩ := hpa (some "")
  have ht : encodeModules closure.modules = encodeModules closure'.modules := by
    rw [hm, hm']
    rfl
  have hdig : closure.closureDigest = closure'.closureDigest := by
    obtain ⟨-, os, -, -, -, rfl⟩ := parseExplicitBundle_parsed hcl
    obtain ⟨-, os', -, -, -, rfl⟩ := parseExplicitBundle_parsed hc'
    exact congrArg (digestText sha) ht
  have hs := h _ _ closure closure' hcl hc' (by
      unfold closureBytes
      rw [ht, Set.pair_eq_singleton]
      exact Set.injOn_singleton _ _) hdig
  rw [hm, hm'] at hs
  simp [importing] at hs

end Beagle.Parser
