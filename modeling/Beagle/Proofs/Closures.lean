/-
Explicit bundles close correctly.

The checks come to six conditions.  The walk along imports keeps the paths it has reached
apart and closed up to its cursor, so it ends with exactly the sources that are reached; and
the choice of the least ready source stops early only on a cycle.  Neither depends on the
order in which the sources are given.
-/
import Beagle.Native.Parser

namespace Beagle.Parser

open Beagle.FrontendFacts List
open Beagle.Native (Sha256)
open Beagle.Lib (Utf8.encode)
open Beagle.Lib.Cycles

/-! ### What the checks ask for -/

structure ValidSpan (path : String) (span : SourceSpan) : Prop where
  path : span.path = path
  start : 0 ≤ span.startByte
  finish : span.startByte ≤ span.endByte
  line : 0 ≤ span.line
  column : 0 ≤ span.column

structure ValidFact (bundle : SyntaxFactBundle) (row : CompilerFact) : Prop where
  order : 0 ≤ row.order
  slot : 0 ≤ row.slot
  span : ∃ span, row.span = some span ∧ ValidSpan bundle.path span
  node : ∀ nodeId, row.value = .nodeRef nodeId → ∃ other ∈ bundle.facts, other.subject = nodeId

structure ValidImport (sources : List ExplicitFactSource) (source : ExplicitFactSource)
    (edge : ImportEdgeFact) : Prop where
  importer : source.namespaceName = some edge.importer
  span : ValidSpan source.path edge.span
  required : ∃ required ∈ sources, required.namespaceName = some edge.required ∧
    (source.authority = .trusted → required.authority = .trusted)

/-- The endings of paths with the profiles they ask for. -/
def profiles : List (String × String) :=
  [(".bgl", "native-core"), (".bclj", "clj"), (".bjs", "js"), (".bnix", "nix")]

structure ValidSource (sources : List ExplicitFactSource) (source : ExplicitFactSource) :
    Prop where
  name : source.namespaceName ≠ none
  profile : ∃ entry ∈ profiles, Utf8.encode entry.1 <:+ Utf8.encode source.path ∧
    source.bundle.profile = entry.2
  facts : ∀ row ∈ source.bundle.facts, ValidFact source.bundle row
  imports : ∀ edge ∈ source.imports, ValidImport sources source edge

/-- One source imports the other. -/
def Imports (sources : List ExplicitFactSource) (source required : ExplicitFactSource) : Prop :=
  required ∈ sources ∧ ∃ edge ∈ source.imports, required.namespaceName = some edge.required

/-- The six conditions of a bundle. -/
structure Closes (request : ExplicitFactBundle) : Prop where
  nonempty : request.sources ≠ []
  paths : (request.sources.map ExplicitFactSource.path).Nodup
  namespaces : (request.sources.map ExplicitFactSource.namespaceName).Nodup
  valid : ∀ source ∈ request.sources, ValidSource request.sources source
  reached : ∃ entry ∈ request.sources, entry.path = request.entryPath ∧
    ∀ source ∈ request.sources, Relation.ReflTransGen (Imports request.sources) entry source
  acyclic : ∀ source ∈ request.sources, ¬ OnCycle (Imports request.sources) source

/-! ### Lookups -/

variable {ss others : List ExplicitFactSource} {source : ExplicitFactSource} {path : String}

theorem sourceForPath_eq (h : sourceForPath ss path = some source) :
    source ∈ ss ∧ source.path = path := by
  unfold sourceForPath at h
  have hp := find?_some h
  exact ⟨mem_of_find?_eq_some h, (beq_iff_eq.mp hp).symm⟩

variable {n s : String} {b : SyntaxFactBundle} {paths : List String}

theorem sourceForNamespace_eq (h : sourceForNamespace ss n = some source) :
    source ∈ ss ∧ source.namespaceName = some n := by
  unfold sourceForNamespace at h
  have hn := find?_some h
  exact ⟨mem_of_find?_eq_some h, beq_iff_eq.mp hn⟩

/-- Where paths are unique a source is found under its path. -/
theorem sourceForPath_of_mem (hpa : (ss.map ExplicitFactSource.path).Nodup)
    (h : source ∈ ss) : sourceForPath ss source.path = some source := by
  cases hf : sourceForPath ss source.path with
  | none =>
    unfold sourceForPath at hf
    exact absurd (beq_self_eq_true _) (find?_eq_none.mp hf source h)
  | some fd =>
    obtain ⟨hmem, hp⟩ := sourceForPath_eq hf
    rw [inj_on_of_nodup_map hpa hmem h hp]

theorem sourceForNamespace_of_mem (hnam : (ss.map ExplicitFactSource.namespaceName).Nodup)
    (h : source ∈ ss) (hn : source.namespaceName = some n) :
    sourceForNamespace ss n = some source := by
  cases hf : sourceForNamespace ss n with
  | none =>
    unfold sourceForNamespace at hf
    exact absurd (beq_iff_eq.mpr hn) (find?_eq_none.mp hf source h)
  | some fd =>
    obtain ⟨hmem, hfn⟩ := sourceForNamespace_eq hf
    rw [inj_on_of_nodup_map hnam hmem h (hfn.trans hn.symm)]

theorem sourceForPath_isNone :
    (sourceForPath ss path).isNone = true ↔ ∀ source ∈ ss, source.path ≠ path := by
  unfold sourceForPath
  rw [Option.isNone_iff_eq_none, find?_eq_none]
  refine forall₂_congr fun source _ => not_congr ?_
  rw [beq_iff_eq]
  exact eq_comm

/-! ### Paths and namespaces -/

theorem duplicatePathFrom_eq_none {seen : List String} : duplicatePathFrom seen ss = none ↔
    (ss.map ExplicitFactSource.path).Nodup ∧ ∀ source ∈ ss, source.path ∉ seen := by
  induction ss generalizing seen with
  | nil => simp [duplicatePathFrom]
  | cons source r ih =>
    rw [duplicatePathFrom]
    by_cases hs : source.path ∈ seen
    · rw [if_pos hs]
      exact ⟨nofun, fun h => absurd hs (h.2 source mem_cons_self)⟩
    · rw [if_neg hs, ih, map_cons, nodup_cons]
      constructor
      · rintro ⟨hnd, hnew⟩
        refine ⟨⟨?_, hnd⟩, ?_⟩
        · intro hmem
          obtain ⟨o, ho, hp⟩ := mem_map.mp hmem
          exact hnew o ho (mem_append_right _ (hp ▸ mem_singleton_self _))
        · intro o ho
          rcases mem_cons.mp ho with rfl | ho
          · exact hs
          · exact fun h => hnew o ho (mem_append_left _ h)
      · rintro ⟨⟨hh, hnd⟩, hnew⟩
        refine ⟨hnd, ?_⟩
        intro o ho h
        rcases List.mem_append.mp h with h | h
        · exact hnew o (mem_cons_of_mem _ ho) h
        · exact hh (mem_map.mpr ⟨o, ho, mem_singleton.mp h⟩)

/-- Namespaces are unique unless the loop has met a source without one. -/
theorem duplicateNamespaceFrom_eq_none {sn : List String}
    (hso : ∀ source ∈ ss, source.namespaceName ≠ none) :
    duplicateNamespaceFrom sn ss = none ↔ (ss.map ExplicitFactSource.namespaceName).Nodup ∧
        ∀ source ∈ ss, ∀ n ∈ sn, source.namespaceName ≠ some n := by
  induction ss generalizing sn with
  | nil => simp [duplicateNamespaceFrom]
  | cons source r ih =>
    obtain ⟨n, hn⟩ := Option.ne_none_iff_exists'.mp (hso source mem_cons_self)
    rw [duplicateNamespaceFrom, hn]
    dsimp only
    by_cases hs : n ∈ sn
    · rw [if_pos hs]
      exact ⟨nofun, fun h => absurd hn (h.2 source mem_cons_self n hs)⟩
    · rw [if_neg hs, ih fun o ho => hso o (mem_cons_of_mem _ ho), map_cons, nodup_cons]
      constructor
      · rintro ⟨hnd, hnew⟩
        refine ⟨⟨?_, hnd⟩, ?_⟩
        · intro hmem
          obtain ⟨o, ho, hsa⟩ := mem_map.mp hmem
          exact hnew o ho n (mem_append_right _ mem_cons_self) (hsa.trans hn)
        · intro o ho b hpre
          rcases mem_cons.mp ho with rfl | ho
          · rw [hn]
            exact fun h => hs (Option.some.inj h ▸ hpre)
          · exact hnew o ho b (mem_append_left _ hpre)
      · rintro ⟨⟨hh, hnd⟩, hnew⟩
        refine ⟨hnd, ?_⟩
        intro o ho b hpre h
        rcases List.mem_append.mp hpre with hpre | hpre
        · exact hnew o (mem_cons_of_mem _ ho) b hpre h
        · rw [mem_singleton.mp hpre, ← hn] at h
          exact hh (mem_map.mpr ⟨o, ho, h⟩)

/-! ### Valid sources -/

theorem spanValid_iff {span : SourceSpan} :
    spanValid span path = true ↔ ValidSpan path span := by
  unfold spanValid
  simp only [Bool.and_eq_true, beq_iff_eq, decide_eq_true_eq]
  constructor
  · rintro ⟨⟨⟨⟨hp, hst⟩, hfin⟩, hl⟩, hcol⟩
    exact ⟨hp.symm, hst, hfin, hl, hcol⟩
  · rintro ⟨hp, hst, hfin, hl, hcol⟩
    exact ⟨⟨⟨⟨hp.symm, hst⟩, hfin⟩, hl⟩, hcol⟩

theorem factValueNodeValid_iff {rs : List CompilerFact} {v : FactValue} :
    factValueNodeValid rs v = true ↔
      ∀ nodeId, v = .nodeRef nodeId → ∃ o ∈ rs, o.subject = nodeId := by
  cases v with
  | nodeRef nodeId =>
    show nodeDefined rs nodeId = true ↔ _
    unfold nodeDefined
    rw [any_eq_true]
    constructor
    · rintro ⟨o, ho, hs⟩ ni' heq
      obtain rfl := FactValue.nodeRef.inj heq
      exact ⟨o, ho, (beq_iff_eq.mp hs).symm⟩
    · intro h
      obtain ⟨o, ho, hs⟩ := h nodeId rfl
      exact ⟨o, ho, beq_iff_eq.mpr hs.symm⟩
  | text _ | bool _ | int _ | nil => exact ⟨fun _ _ => nofun, fun _ => rfl⟩

theorem factsValid_iff : factsValid b = true ↔ ∀ row ∈ b.facts, ValidFact b row := by
  unfold factsValid
  rw [all_eq_true]
  refine forall₂_congr fun row _ => ?_
  simp only [Bool.and_eq_true, decide_eq_true_eq, factValueNodeValid_iff]
  constructor
  · rintro ⟨⟨⟨hord, hsl⟩, hs⟩, hn⟩
    refine ⟨hord, hsl, ?_, hn⟩
    cases hrow : row.span with
    | none =>
      rw [hrow] at hs
      exact absurd hs Bool.false_ne_true
    | some s =>
      rw [hrow] at hs
      exact ⟨s, rfl, spanValid_iff.mp hs⟩
  · rintro ⟨hord, hsl, ⟨s, hrow, hs⟩, hn⟩
    refine ⟨⟨⟨hord, hsl⟩, ?_⟩, hn⟩
    rw [hrow]
    exact spanValid_iff.mpr hs

theorem authorityTrusted_iff {a : ModuleAuthority} : authorityTrusted a = true ↔ a = .trusted := by
  unfold authorityTrusted
  rw [beq_iff_eq]

theorem importsValid_iff (hnam : (ss.map ExplicitFactSource.namespaceName).Nodup)
    (hn : source.namespaceName ≠ none) : importsValid source ss = true ↔
      ∀ edge ∈ source.imports, ValidImport ss source edge := by
  obtain ⟨n, hn⟩ := Option.ne_none_iff_exists'.mp hn
  unfold importsValid
  rw [hn]
  dsimp only
  rw [all_eq_true]
  refine forall₂_congr fun edge _ => ?_
  simp only [Bool.and_eq_true, beq_iff_eq, spanValid_iff]
  constructor
  · rintro ⟨⟨himp, hs⟩, hreq⟩
    cases hf : sourceForNamespace ss edge.required with
    | none =>
      rw [hf] at hreq
      exact absurd hreq Bool.false_ne_true
    | some rq =>
      rw [hf] at hreq
      obtain ⟨hmem, hrn⟩ := sourceForNamespace_eq hf
      refine ⟨himp ▸ hn, hs, rq, hmem, hrn, ?_⟩
      intro ht
      rw [ht] at hreq
      exact authorityTrusted_iff.mp hreq
  · rintro ⟨himp, hs, rq, hmem, hrn, htr⟩
    refine ⟨⟨Option.some.inj (hn.symm.trans himp), hs⟩, ?_⟩
    rw [sourceForNamespace_of_mem hnam hmem hrn]
    dsimp only
    rw [Bool.or_eq_true, Bool.not_eq_true', Bool.eq_false_iff, Ne, authorityTrusted_iff,
      authorityTrusted_iff]
    exact Classical.or_iff_not_imp_left.mpr fun h => htr (not_not.mp h)

theorem endsIn_iff {value : String} :
    endsIn value s = true ↔ Utf8.encode s <:+ Utf8.encode value := by
  unfold endsIn
  dsimp only
  rw [Bool.and_eq_true, decide_eq_true_eq, beq_iff_eq, suffix_iff_eq_drop]
  refine ⟨fun h => h.2.symm, fun h => ⟨?_, h.symm⟩⟩
  have hlen := congrArg List.length h
  rw [length_drop] at hlen
  omega

/-- A path has one ending. -/
theorem endsIn_last {v s' : String} (h : endsIn v s = true)
    (h' : endsIn v s' = true) (hne : Utf8.encode s ≠ [])
    (hne' : Utf8.encode s' ≠ []) :
    (Utf8.encode s).getLast? = (Utf8.encode s').getLast? := by
  obtain ⟨fr, hfr⟩ := endsIn_iff.mp h
  obtain ⟨fr', hfr'⟩ := endsIn_iff.mp h'
  have hl := congrArg getLast? (hfr.trans hfr'.symm)
  rwa [getLast?_append_of_ne_nil _ hne, getLast?_append_of_ne_nil _ hne'] at hl

theorem profileMatchesPath_iff : profileMatchesPath b = true ↔
    ∃ entry ∈ profiles, Utf8.encode entry.1 <:+ Utf8.encode b.path ∧ b.profile = entry.2 := by
  have ho : ∀ s s' : String, endsIn b.path s = true → Utf8.encode s ≠ [] → Utf8.encode s' ≠ [] →
      (Utf8.encode s).getLast? ≠ (Utf8.encode s').getLast? →
      endsIn b.path s' ≠ true :=
    fun _ _ h hne hne' hl h' => hl (endsIn_last h h' hne hne')
  have hall : (∃ entry ∈ profiles, Utf8.encode entry.1 <:+ Utf8.encode b.path ∧
      b.profile = entry.2) ↔
      (endsIn b.path ".bgl" = true ∧ b.profile = "native-core") ∨
      (endsIn b.path ".bclj" = true ∧ b.profile = "clj") ∨
      (endsIn b.path ".bjs" = true ∧ b.profile = "js") ∨
      (endsIn b.path ".bnix" = true ∧ b.profile = "nix") := by
    simp only [profiles, mem_cons, not_mem_nil, or_false, exists_eq_or_imp,
      exists_eq_left, endsIn_iff]
  rw [hall]
  unfold profileMatchesPath
  by_cases hbgl : endsIn b.path ".bgl" = true
  · have hb := ho ".bgl" ".bclj" hbgl (by decide) (by decide) (by decide)
    have hbjs := ho ".bgl" ".bjs" hbgl (by decide) (by decide) (by decide)
    have hbn := ho ".bgl" ".bnix" hbgl (by decide) (by decide) (by decide)
    simp [hbgl, hb, hbjs, hbn]
  by_cases hb : endsIn b.path ".bclj" = true
  · have hbjs := ho ".bclj" ".bjs" hb (by decide) (by decide) (by decide)
    have hbn := ho ".bclj" ".bnix" hb (by decide) (by decide) (by decide)
    simp [hbgl, hb, hbjs, hbn]
  by_cases hbjs : endsIn b.path ".bjs" = true
  · have hbn := ho ".bjs" ".bnix" hbjs (by decide) (by decide) (by decide)
    simp [hbgl, hb, hbjs, hbn]
  · simp [hbgl, hb, hbjs]

theorem sourceValid_iff (hnam : (ss.map ExplicitFactSource.namespaceName).Nodup) :
    sourceValid source ss = true ↔ ValidSource ss source := by
  unfold sourceValid
  rw [Bool.and_eq_true, Bool.and_eq_true, Bool.and_eq_true, Option.isSome_iff_ne_none,
    profileMatchesPath_iff, factsValid_iff]
  constructor
  · rintro ⟨⟨⟨hn, hp⟩, hf⟩, hi⟩
    exact ⟨hn, hp, hf, (importsValid_iff hnam hn).mp hi⟩
  · rintro ⟨hn, hp, hf, hi⟩
    exact ⟨⟨⟨hn, hp⟩, hf⟩, (importsValid_iff hnam hn).mpr hi⟩

/-! ### Reachability -/

theorem mem_addRequired {e : ImportEdgeFact} :
    path ∈ addRequired ss paths e ↔ path ∈ paths ∨
      ∃ rq, sourceForNamespace ss e.required = some rq ∧ rq.path = path := by
  unfold addRequired
  cases hf : sourceForNamespace ss e.required with
  | none => simp
  | some rq =>
    dsimp only
    by_cases hmem : rq.path ∈ paths
    · rw [if_pos hmem]
      refine ⟨Or.inl, ?_⟩
      rintro (h | ⟨_, heq, rfl⟩)
      · exact h
      · exact Option.some.inj heq ▸ hmem
    · rw [if_neg hmem, List.mem_append, mem_singleton]
      refine or_congr_right ⟨fun h => ⟨rq, rfl, h.symm⟩, ?_⟩
      rintro ⟨_, heq, rfl⟩
      rw [Option.some.inj heq]

theorem addRequired_nodup (h : paths.Nodup) (e : ImportEdgeFact) :
    (addRequired ss paths e).Nodup := by
  unfold addRequired
  split
  · exact h
  · split
    · exact h
    · rename_i hnew
      exact nodup_append.mpr ⟨h, nodup_singleton _, by
        rintro path hp _ hl rfl
        exact hnew (mem_singleton.mp hl ▸ hp)⟩

theorem addRequired_front (paths : List String) (edge : ImportEdgeFact) :
    paths <+: addRequired ss paths edge := by
  unfold addRequired
  split
  · exact prefix_rfl
  · split
    · exact prefix_rfl
    · exact prefix_append _ _

theorem foldl_addRequired (ims : List ImportEdgeFact) (paths : List String) (h : paths.Nodup) :
    (ims.foldl (addRequired ss) paths).Nodup ∧
    paths <+: ims.foldl (addRequired ss) paths ∧
    ∀ path, path ∈ ims.foldl (addRequired ss) paths ↔ path ∈ paths ∨
      ∃ e ∈ ims, ∃ rq, sourceForNamespace ss e.required = some rq ∧ rq.path = path := by
  induction ims generalizing paths with
  | nil => exact ⟨h, prefix_rfl, fun path => by simp⟩
  | cons e ims ih =>
    obtain ⟨hnd, hfr, hmem⟩ := ih _ (addRequired_nodup h e)
    refine ⟨hnd, (addRequired_front paths e).trans hfr, ?_⟩
    intro path
    rw [foldl_cons, hmem, mem_addRequired, or_assoc]
    refine or_congr_right ?_
    simp only [mem_cons, exists_eq_or_imp]

/-- The walk so far: no path twice, every path that of a source reached, and what is imported
from before the cursor is there. -/
structure Walked (sources : List ExplicitFactSource) (entry : ExplicitFactSource) (cursor : Nat)
    (reached : List String) : Prop where
  nodup : reached.Nodup
  start : entry.path ∈ reached
  sound : ∀ path ∈ reached, ∃ source ∈ sources, source.path = path ∧
    Relation.ReflTransGen (Imports sources) entry source
  closed : ∀ index < cursor, ∀ path, reached[index]? = some path → ∀ source ∈ sources,
    source.path = path → ∀ required, Imports sources source required → required.path ∈ reached

theorem walked_first {entry : ExplicitFactSource} (hent : entry ∈ ss) :
    Walked ss entry 0 [entry.path] := by
  refine ⟨nodup_singleton _, mem_singleton_self _, ?_, nofun⟩
  intro path hp
  exact ⟨entry, hent, (mem_singleton.mp hp).symm, .refl⟩

section

variable (hpa : (ss.map ExplicitFactSource.path).Nodup)
  (hnam : (ss.map ExplicitFactSource.namespaceName).Nodup)

include hpa hnam

theorem Walked.step {entry : ExplicitFactSource} {cursor : Nat} {r : List String}
    (h : Walked ss entry cursor r) (hc : r[cursor]? = some source.path)
    (hsrc : source ∈ ss) :
    Walked ss entry (cursor + 1) (source.imports.foldl (addRequired ss) r) := by
  obtain ⟨hnd, hfr, hmem⟩ := @foldl_addRequired ss source.imports r h.nodup
  obtain ⟨m, hm⟩ := hfr
  obtain ⟨fd, hf, hfp, hent⟩ :=
    h.sound source.path (mem_of_getElem? hc)
  have hs : fd = source := inj_on_of_nodup_map hpa hf hsrc hfp
  refine ⟨hnd, (hmem _).mpr (Or.inl h.start), ?_, ?_⟩
  · intro path hp
    rcases (hmem path).mp hp with hp | ⟨e, he, rq, hreq, rfl⟩
    · exact h.sound path hp
    · obtain ⟨hmr, hn⟩ := sourceForNamespace_eq hreq
      exact ⟨rq, hmr, rfl, (hs ▸ hent).tail ⟨hmr, e, he, hn⟩⟩
  · intro i hidx path hp o ho hop rq hi
    by_cases hl : i = cursor
    · -- the source at the cursor: its imports have just been added
      have hat : (source.imports.foldl (addRequired ss) r)[cursor]? = some source.path := by
        rw [← hm, getElem?_append_left (List.getElem?_eq_some_iff.mp hc).1, hc]
      rw [hl, hat] at hp
      have hos : o = source :=
        inj_on_of_nodup_map hpa ho hsrc (hop.trans (Option.some.inj hp).symm)
      rw [hos] at hi
      obtain ⟨hreq, e, he, hn⟩ := hi
      exact (hmem _).mpr (Or.inr ⟨e, he, rq, sourceForNamespace_of_mem hnam hreq hn, rfl⟩)
    · have hle : i < cursor := by omega
      have hold : r[i]? = some path := by
        have hlen := (List.getElem?_eq_some_iff.mp hc).1
        rw [← hm, getElem?_append_left (by omega)] at hp
        exact hp
      exact (hmem _).mpr (Or.inl (h.closed i hle path hold o ho hop rq hi))

variable {entry : ExplicitFactSource}

theorem reachableFrom_walked {c : Nat} {r : List String} (h : Walked ss entry c r) :
    Walked ss entry (reachableFrom ss c r).length (reachableFrom ss c r) := by
  fun_induction reachableFrom ss c r with
  | case1 c r hp =>
    refine { h with closed := fun i hidx => h.closed i ?_ }
    rw [List.getElem?_eq_none_iff] at hp
    omega
  | case2 c r path hp hn =>
    obtain ⟨source, hsrc, rfl, -⟩ := h.sound path (mem_of_getElem? hp)
    rw [sourceForPath_of_mem hpa hsrc] at hn
    exact absurd hn (Option.some_ne_none _)
  | case3 c r path hp source hf ih =>
    obtain ⟨hsrc, rfl⟩ := sourceForPath_eq hf
    exact ih (h.step hpa hnam hp hsrc)

/-- **The walk ends with the paths of the sources that are reached, each once.** -/
theorem reachablePaths_eq (hent : entry ∈ ss) : (reachablePaths ss entry.path).Nodup ∧
    ∀ source ∈ ss, source.path ∈ reachablePaths ss entry.path ↔
      Relation.ReflTransGen (Imports ss) entry source := by
  have hw := reachableFrom_walked hpa hnam (walked_first hent)
  refine ⟨hw.nodup, ?_⟩
  intro source hsrc
  constructor
  · intro hp
    obtain ⟨fd, hf, hfp, hr⟩ := hw.sound source.path hp
    rwa [inj_on_of_nodup_map hpa hf hsrc hfp] at hr
  · intro hr
    have hall : ∀ rq, Relation.ReflTransGen (Imports ss) entry rq →
        rq ∈ ss ∧ rq.path ∈ reachablePaths ss entry.path := by
      intro rq hreq
      induction hreq with
      | refl => exact ⟨hent, hw.start⟩
      | tail _ hi ih =>
        obtain ⟨i, hidx⟩ := mem_iff_getElem?.mp ih.2
        exact ⟨hi.1, hw.closed i (List.getElem?_eq_some_iff.mp hidx).1 _ hidx
          _ ih.1 rfl _ hi⟩
    exact (hall source hr).2

/-- As many paths are reached as there are sources when all are. -/
theorem length_reachablePaths (hent : entry ∈ ss) :
    ss.length = (reachablePaths ss entry.path).length ↔
      ∀ source ∈ ss, Relation.ReflTransGen (Imports ss) entry source := by
  obtain ⟨hnd, hmem⟩ := reachablePaths_eq hpa hnam hent
  have hsub : ∀ path ∈ reachablePaths ss entry.path, path ∈ ss.map ExplicitFactSource.path := by
    intro path hp
    obtain ⟨source, hsrc, rfl, -⟩ :=
      (reachableFrom_walked hpa hnam (walked_first hent)).sound path hp
    exact mem_map_of_mem hsrc
  rw [← length_map ExplicitFactSource.path]
  constructor
  · intro hlen source hsrc
    have hperm := (subperm_of_subset hnd hsub).perm_of_length_le (Nat.le_of_eq hlen)
    exact (hmem source hsrc).mp (hperm.mem_iff.mpr (mem_map_of_mem hsrc))
  · intro hall
    refine Nat.le_antisymm ?_ (subperm_of_subset hnd hsub).length_le
    refine (subperm_of_subset hpa ?_).length_le
    intro path hp
    obtain ⟨source, hsrc, rfl⟩ := mem_map.mp hp
    exact (hmem source hsrc).mpr (hall source hsrc)

end

/-! ### The choice of the next source -/

/-- Not taken, and everything it imports is. -/
def Ready (sources : List ExplicitFactSource) (taken : List String)
    (source : ExplicitFactSource) : Prop :=
  source.path ∉ taken ∧ dependenciesSelected source sources taken = true

/-- The source of least path among those of a kind, if there is one. -/
def LeastOf (p : ExplicitFactSource → Prop) (seen : List ExplicitFactSource) :
    Option ExplicitFactSource → Prop
  | none => ∀ source ∈ seen, ¬ p source
  | some least => least ∈ seen ∧ p least ∧ ∀ source ∈ seen, p source → least.path ≤ source.path

variable {best : Option ExplicitFactSource}

theorem LeastOf.unique {p q : ExplicitFactSource → Prop} (hpq : ∀ source ∈ ss, p source ↔ q source)
    (hpa : (ss.map ExplicitFactSource.path).Nodup) (hperm : ss.Perm others)
    {best' : Option ExplicitFactSource} (h : LeastOf p ss best) (h' : LeastOf q others best') :
    best = best' := by
  cases best with
  | none =>
    cases best' with
    | none => rfl
    | some l =>
      have hmem := hperm.mem_iff.mpr h'.1
      exact absurd ((hpq l hmem).mpr h'.2.1) (h l hmem)
  | some l =>
    cases best' with
    | none => exact absurd ((hpq l h.1).mp h.2.1) (h' l (hperm.mem_iff.mp h.1))
    | some o =>
      have hmem := hperm.mem_iff.mpr h'.1
      have hle := h.2.2 o hmem ((hpq o hmem).mpr h'.2.1)
      have hge := h'.2.2 l (hperm.mem_iff.mp h.1) ((hpq l h.1).mp h.2.1)
      rw [inj_on_of_nodup_map hpa h.1 hmem (le_antisymm hle hge)]

theorem lexicalReadyStep_least {tk : List String} {sn : List ExplicitFactSource}
    (h : LeastOf (Ready ss tk) sn best) (source : ExplicitFactSource) :
    LeastOf (Ready ss tk) (sn ++ [source]) (lexicalReadyStep ss tk best source) := by
  unfold lexicalReadyStep
  by_cases hr : Ready ss tk source
  · rw [if_neg (not_or.mpr ⟨hr.1, by rw [hr.2]; exact Bool.true_eq_false_eq_False⟩)]
    cases best with
    | none =>
      refine ⟨mem_append_right _ mem_cons_self, hr, ?_⟩
      intro o ho hor
      rcases List.mem_append.mp ho with ho | ho
      · exact absurd hor (h o ho)
      · rw [mem_singleton.mp ho]
    | some fd =>
      obtain ⟨hmem, hfr, hle⟩ := h
      dsimp only
      by_cases hl : source.path < fd.path
      · rw [if_pos hl]
        refine ⟨mem_append_right _ mem_cons_self, hr, ?_⟩
        intro o ho hor
        rcases List.mem_append.mp ho with ho | ho
        · exact le_trans (le_of_lt hl) (hle o ho hor)
        · rw [mem_singleton.mp ho]
      · rw [if_neg hl]
        refine ⟨mem_append_left _ hmem, hfr, ?_⟩
        intro o ho hor
        rcases List.mem_append.mp ho with ho | ho
        · exact hle o ho hor
        · rw [mem_singleton.mp ho]
          exact not_lt.mp hl
  · have hs : source.path ∈ tk ∨ dependenciesSelected source ss tk = false := by
      by_cases hmem : source.path ∈ tk
      · exact Or.inl hmem
      · exact Or.inr (Bool.eq_false_of_not_eq_true fun hd => hr ⟨hmem, hd⟩)
    rw [if_pos hs]
    cases best with
    | none =>
      intro o ho
      rcases List.mem_append.mp ho with ho | ho
      · exact h o ho
      · rw [mem_singleton.mp ho]
        exact hr
    | some fd =>
      refine ⟨mem_append_left _ h.1, h.2.1, ?_⟩
      intro o ho hor
      rcases List.mem_append.mp ho with ho | ho
      · exact h.2.2 o ho hor
      · rw [mem_singleton.mp ho] at hor
        exact absurd hor hr

/-- **The next source is the ready one of least path.** -/
theorem lexicalReadySource_least (ss : List ExplicitFactSource) (tk : List String) :
    LeastOf (Ready ss tk) ss (lexicalReadySource ss tk) := by
  have hf : ∀ (r sn : List ExplicitFactSource) (best : Option ExplicitFactSource),
      LeastOf (Ready ss tk) sn best →
      LeastOf (Ready ss tk) (sn ++ r) (r.foldl (lexicalReadyStep ss tk) best) := by
    intro r
    induction r with
    | nil =>
      intro sn best h
      rw [append_nil]
      exact h
    | cons source r ih =>
      intro sn best h
      have hn := ih _ _ (lexicalReadyStep_least h source)
      rwa [append_assoc] at hn
  exact hf ss [] none (forall_mem_nil _)

/-- With every import resolved, a source is ready when what it imports is taken. -/
theorem dependenciesSelected_iff (hnam : (ss.map ExplicitFactSource.namespaceName).Nodup)
    (hv : ValidSource ss source) {taken : List String} :
    dependenciesSelected source ss taken = true ↔ ∀ rq, Imports ss source rq → rq.path ∈ taken := by
  unfold dependenciesSelected
  rw [all_eq_true]
  constructor
  · rintro h rq ⟨hmem, e, he, hn⟩
    have hsel := h e he
    rw [sourceForNamespace_of_mem hnam hmem hn] at hsel
    exact contains_iff_mem.mp hsel
  · intro h e he
    obtain ⟨rq, hmem, hn, -⟩ := (hv.imports e he).required
    rw [sourceForNamespace_of_mem hnam hmem hn]
    exact contains_iff_mem.mpr (h rq ⟨hmem, e, he, hn⟩)

/-! ### The order of the sources -/

/-- Each source is ready behind those before it, and of the least path among the ready. -/
structure Ordered (sources ordered : List ExplicitFactSource) : Prop where
  nodup : (ordered.map ExplicitFactSource.path).Nodup
  mem : ∀ source ∈ ordered, source ∈ sources
  least : ∀ front source back, ordered = front ++ source :: back →
    LeastOf (Ready sources (front.map ExplicitFactSource.path)) sources (some source)

theorem Ordered.step {os : List ExplicitFactSource} (h : Ordered ss os)
    (hn : lexicalReadySource ss (os.map ExplicitFactSource.path) = some source) :
    Ordered ss (os ++ [source]) := by
  have hl := lexicalReadySource_least ss (os.map ExplicitFactSource.path)
  rw [hn] at hl
  refine ⟨?_, ?_, ?_⟩
  · rw [map_append]
    refine nodup_append.mpr ⟨h.nodup, nodup_singleton _, ?_⟩
    rintro path hp _ hla rfl
    exact hl.2.1.1 (mem_singleton.mp hla ▸ hp)
  · intro o ho
    rcases List.mem_append.mp ho with ho | ho
    · exact h.mem o ho
    · rw [mem_singleton.mp ho]
      exact hl.1
  · intro fr o b hsp
    rcases eq_nil_or_concat b with rfl | ⟨b, l, rfl⟩
    · obtain ⟨rfl, hla⟩ := append_inj' hsp rfl
      rw [← (List.cons.inj hla).1]
      exact hl
    · refine h.least fr o b ?_
      have hsp' : os ++ [source] = (fr ++ o :: b) ++ [l] := by
        rw [hsp, concat_eq_append, append_assoc, cons_append]
      exact (append_inj' hsp' rfl).1

variable {os : List ExplicitFactSource}

theorem Ordered.perm (h : Ordered ss os)
    (hlen : os.length = ss.length) : os.Perm ss :=
  (subperm_of_subset (Nodup.of_map _ h.nodup) h.mem).perm_of_length_le (Nat.le_of_eq hlen.symm)

/-- The sources in order, or those taken when none is ready. -/
theorem topologicalFrom_cases (rs : Nat) (h : Ordered ss os) :
    (∃ res, topologicalFrom ss rs os (os.map ExplicitFactSource.path) =
      some res ∧ Ordered ss res ∧ res.length = os.length + rs) ∨
    (topologicalFrom ss rs os (os.map ExplicitFactSource.path) = none ∧
      ∃ s, Ordered ss s ∧ s.length < os.length + rs ∧
        lexicalReadySource ss (s.map ExplicitFactSource.path) = none) := by
  induction rs generalizing os with
  | zero => exact Or.inl ⟨os, rfl, h, rfl⟩
  | succ rs ih =>
    rw [topologicalFrom]
    cases hn : lexicalReadySource ss (os.map ExplicitFactSource.path) with
    | none => exact Or.inr ⟨rfl, os, h, by omega, hn⟩
    | some next =>
      dsimp only
      have hmap : os.map ExplicitFactSource.path ++ [next.path] =
          (os ++ [next]).map ExplicitFactSource.path := by
        rw [map_append]
        rfl
      have hlen : (os ++ [next]).length + rs = os.length + (rs + 1) := by
        rw [length_append, length_singleton]
        omega
      rw [hmap, ← hlen]
      exact ih (h.step hn)

section

variable (hpa : (ss.map ExplicitFactSource.path).Nodup)
  (hnam : (ss.map ExplicitFactSource.namespaceName).Nodup)
  (hv : ∀ source ∈ ss, ValidSource ss source)

include hpa hnam hv

/-- In an order of all the sources what is imported comes earlier. -/
theorem Ordered.acyclic {os : List ExplicitFactSource} (h : Ordered ss os)
    (hperm : os.Perm ss) : ∀ source ∈ ss, ¬ OnCycle (Imports ss) source := by
  intro source hsrc
  refine @not_onCycle_of_falls _ (Imports ss) source (fun source => os.idxOf source)
    (fun source => source ∈ ss) ?_ hsrc
  intro c rq hc hi
  refine ⟨hi.1, ?_⟩
  obtain ⟨front, b, hsp⟩ := append_of_mem (hperm.mem_iff.mpr hc)
  have hl := h.least front c b hsp
  have hfr := (dependenciesSelected_iff hnam (hv c hc)).mp hl.2.1.2 rq hi
  obtain ⟨fd, hf, hfp⟩ := mem_map.mp hfr
  have hmf : fd ∈ ss :=
    h.mem fd (hsp ▸ mem_append_left _ hf)
  rw [inj_on_of_nodup_map hpa hmf hi.1 hfp] at hf
  have hnot : c ∉ front := by
    intro hmem
    exact hl.2.1.1 (mem_map_of_mem hmem)
  rw [hsp, idxOf_append_of_mem hf, idxOf_append_of_notMem hnot, idxOf_cons_self, Nat.add_zero]
  exact idxOf_lt_length_of_mem hf

/-- Where no source is ready and one is left, there is a cycle. -/
theorem exists_ready {tk : List ExplicitFactSource}
    (ha : ∀ source ∈ ss, ¬ OnCycle (Imports ss) source)
    (hlen : tk.length < ss.length) :
    lexicalReadySource ss (tk.map ExplicitFactSource.path) ≠ none := by
  intro hn
  have hlea := lexicalReadySource_least ss (tk.map ExplicitFactSource.path)
  rw [hn] at hlea
  let l := ss.filter fun source => source.path ∉ tk.map ExplicitFactSource.path
  have hmem : ∀ source, source ∈ l ↔
      source ∈ ss ∧ source.path ∉ tk.map ExplicitFactSource.path := by
    intro source
    rw [mem_filter, decide_eq_true_eq]
  have hne : l ≠ [] := by
    intro hemp
    have hsub : ∀ path ∈ ss.map ExplicitFactSource.path, path ∈ tk.map ExplicitFactSource.path := by
      intro path hp
      obtain ⟨source, hsrc, rfl⟩ := mem_map.mp hp
      by_contra hnew
      have hl := (hmem source).mpr ⟨hsrc, hnew⟩
      rw [hemp] at hl
      exact absurd hl not_mem_nil
    have hle := (subperm_of_subset hpa hsub).length_le
    rw [length_map, length_map] at hle
    omega
  obtain ⟨source, hsrc, hf⟩ :=
    exists_free hne fun source hsrc => ha source ((hmem source).mp hsrc).1
  obtain ⟨hin, hnew⟩ := (hmem source).mp hsrc
  refine hlea source hin ⟨hnew, ?_⟩
  refine (dependenciesSelected_iff hnam (hv source hin)).mpr fun rq hi => ?_
  by_contra hl
  exact hf rq ((hmem rq).mpr ⟨hi.1, hl⟩) hi

/-- **The sources are put in order exactly when no import leads back.** -/
theorem topologicalSources_cases : (∃ os, topologicalSources ss = some os ∧ Ordered ss os ∧
      os.Perm ss ∧ ∀ source ∈ ss, ¬ OnCycle (Imports ss) source) ∨
    (topologicalSources ss = none ∧ ¬ ∀ source ∈ ss, ¬ OnCycle (Imports ss) source) := by
  have hfst : Ordered ss [] :=
    ⟨nodup_nil, forall_mem_nil _, by simp⟩
  rcases topologicalFrom_cases ss.length hfst with
    ⟨os, hres, hord, hlen⟩ | ⟨hres, s, -, hlen, hn⟩
  · rw [length_nil, Nat.zero_add] at hlen
    have hperm := hord.perm hlen
    exact Or.inl ⟨os, hres, hord, hperm, hord.acyclic hpa hnam hv hperm⟩
  · rw [length_nil, Nat.zero_add] at hlen
    exact Or.inr ⟨hres, fun ha =>
      exists_ready hpa hnam hv ha hlen hn⟩

end

/-! ### Sources in another order -/

section

variable (hperm : ss.Perm others) (hpa : (ss.map ExplicitFactSource.path).Nodup)
  (hnam : (ss.map ExplicitFactSource.namespaceName).Nodup)

include hperm

theorem imports_perm {required : ExplicitFactSource} :
    Imports others source required ↔ Imports ss source required :=
  and_congr_left' hperm.symm.mem_iff

theorem validSource_perm (h : ValidSource ss source) : ValidSource others source := by
  refine { h with imports := fun e he => ?_ }
  have hv := h.imports e he
  obtain ⟨required, hmem, hr⟩ := hv.required
  exact { hv with required := ⟨required, hperm.mem_iff.mp hmem, hr⟩ }

theorem sourceForNamespace_perm
    (hnam : (ss.map ExplicitFactSource.namespaceName).Nodup) (n : String) :
    sourceForNamespace others n = sourceForNamespace ss n := by
  have hn' := (hperm.map ExplicitFactSource.namespaceName).nodup_iff.mp hnam
  cases hf : sourceForNamespace others n with
  | some fd =>
    obtain ⟨hmem, hn⟩ := sourceForNamespace_eq hf
    exact (sourceForNamespace_of_mem hnam (hperm.mem_iff.mpr hmem) hn).symm
  | none =>
    cases hf' : sourceForNamespace ss n with
    | none => rfl
    | some fd =>
      obtain ⟨hmem, hn⟩ := sourceForNamespace_eq hf'
      rw [sourceForNamespace_of_mem hn' (hperm.mem_iff.mp hmem) hn] at hf
      exact absurd hf (Option.some_ne_none _)

include hpa hnam

theorem lexicalReadySource_perm (taken : List String) :
    lexicalReadySource others taken = lexicalReadySource ss taken := by
  refine (LeastOf.unique (fun source _ => ?_) hpa hperm
    (lexicalReadySource_least ss taken) (lexicalReadySource_least others taken)).symm
  unfold Ready dependenciesSelected
  simp only [sourceForNamespace_perm hperm hnam]

theorem topologicalFrom_perm (rs : Nat) (os : List ExplicitFactSource) (taken : List String) :
    topologicalFrom others rs os taken = topologicalFrom ss rs os taken := by
  induction rs generalizing os taken with
  | zero => rfl
  | succ rs ih =>
    rw [topologicalFrom, topologicalFrom, lexicalReadySource_perm hperm hpa hnam]
    cases lexicalReadySource ss taken with
    | none => rfl
    | some next => exact ih _ _

theorem topologicalSources_perm : topologicalSources others = topologicalSources ss := by
  unfold topologicalSources
  rw [← hperm.length_eq]
  exact topologicalFrom_perm hperm hpa hnam _ _ _

end

variable {req : ExplicitFactBundle}

theorem Closes.perm (h : Closes req)
    (hperm : req.sources.Perm others) : Closes ⟨req.entryPath, others⟩ where
  nonempty := fun hnil => h.nonempty (length_eq_zero_iff.mp (by
    rw [hperm.length_eq]
    exact length_eq_zero_iff.mpr hnil))
  paths := (hperm.map _).nodup_iff.mp h.paths
  namespaces := (hperm.map _).nodup_iff.mp h.namespaces
  valid := fun source hsrc => validSource_perm hperm (h.valid source (hperm.mem_iff.mpr hsrc))
  reached := by
    obtain ⟨entry, hent, hp, hr⟩ := h.reached
    refine ⟨entry, hperm.mem_iff.mp hent, hp, fun source hsrc => ?_⟩
    exact Relation.ReflTransGen.mono (fun _ _ => (imports_perm hperm).mpr) _ _
      (hr source (hperm.mem_iff.mpr hsrc))
  acyclic := by
    intro source hsrc hcyc
    exact h.acyclic source (hperm.mem_iff.mpr hsrc)
      (Relation.TransGen.mono (fun _ _ => (imports_perm hperm).mp) _ _ hcyc)

/-! ### Bundles -/

/-- **The verdict on a bundle.** -/
theorem parseExplicitBundle_cases (sha : Sha256) (req : ExplicitFactBundle) :
    (Closes req ∧ ∃ os, topologicalSources req.sources = some os ∧
      Ordered req.sources os ∧ os.Perm req.sources ∧
      parseExplicitBundle sha req = .parsed (closureFrom sha req.entryPath os)) ∨
    (¬ Closes req ∧ ∃ es, parseExplicitBundle sha req = .rejected es) := by
  unfold parseExplicitBundle
  dsimp only
  by_cases hemp : req.sources.length = 0
  · rw [if_pos hemp]
    exact Or.inr ⟨fun h => h.nonempty (length_eq_zero_iff.mp hemp), _, rfl⟩
  rw [if_neg hemp]
  cases hpa : duplicatePath req.sources with
  | some path =>
    refine Or.inr ⟨fun h => ?_, _, rfl⟩
    have hn := (@duplicatePathFrom_eq_none req.sources []).mpr ⟨h.paths, fun _ _ => not_mem_nil⟩
    exact absurd (hpa.symm.trans hn) (Option.some_ne_none _)
  | none =>
    have hpa := (duplicatePathFrom_eq_none.mp hpa).1
    dsimp only
    cases hnam : duplicateNamespace req.sources with
    | some n =>
      refine Or.inr ⟨fun h => ?_, _, rfl⟩
      have hn := (@duplicateNamespaceFrom_eq_none req.sources []
        fun source hsrc => (h.valid source hsrc).name).mpr
        ⟨h.namespaces, fun _ _ _ hna => absurd hna not_mem_nil⟩
      exact absurd (hnam.symm.trans hn) (Option.some_ne_none _)
    | none =>
      dsimp only
      by_cases hent : (sourceForPath req.sources req.entryPath).isNone = true
      · rw [if_pos hent]
        refine Or.inr ⟨fun h => ?_, _, rfl⟩
        obtain ⟨entry, hmem, hp, -⟩ := h.reached
        exact sourceForPath_isNone.mp hent entry hmem hp
      rw [if_neg hent]
      by_cases hv : (req.sources.all fun source =>
        sourceValid source req.sources) = true
      swap
      · rw [Bool.eq_false_of_not_eq_true hv]
        refine Or.inr ⟨fun h => hv (all_eq_true.mpr fun source hsrc => ?_), _, rfl⟩
        exact (sourceValid_iff h.namespaces).mpr (h.valid source hsrc)
      rw [hv, if_neg (by decide)]
      -- with every source valid each has a namespace, so that none was left out
      have hs : ∀ source ∈ req.sources, source.namespaceName ≠ none := by
        intro source hsrc
        have hsrc := all_eq_true.mp hv source hsrc
        unfold sourceValid at hsrc
        simp only [Bool.and_eq_true] at hsrc
        exact Option.isSome_iff_ne_none.mp hsrc.1.1.1
      have hnam := ((duplicateNamespaceFrom_eq_none hs).mp hnam).1
      have hv : ∀ source ∈ req.sources, ValidSource req.sources source :=
        fun source hsrc =>
          (sourceValid_iff hnam).mp (all_eq_true.mp hv source hsrc)
      obtain ⟨entry, hmem, hp⟩ : ∃ entry ∈ req.sources, entry.path = req.entryPath := by
        by_contra hn
        exact hent (sourceForPath_isNone.mpr fun source hsrc hp =>
          hn ⟨source, hsrc, hp⟩)
      rw [← hp]
      have hlen := length_reachablePaths hpa hnam hmem
      by_cases hr : req.sources.length = (reachablePaths req.sources entry.path).length
      swap
      · rw [if_pos hr]
        refine Or.inr ⟨fun h => hr (hlen.mpr ?_), _, rfl⟩
        obtain ⟨o, ho, hop, hall⟩ := h.reached
        rwa [inj_on_of_nodup_map hpa ho hmem (hop.trans hp.symm)] at hall
      rw [if_neg (not_not_intro hr)]
      have hall := hlen.mp hr
      rcases topologicalSources_cases hpa hnam hv with
        ⟨os, hres, hord, hperm, ha⟩ | ⟨hres, hc⟩
      · rw [hres]
        exact Or.inl ⟨⟨fun hnil => hemp (length_eq_zero_iff.mpr hnil), hpa, hnam,
          hv, ⟨entry, hmem, hp, hall⟩, ha⟩, os, rfl, hord, hperm, rfl⟩
      · rw [hres]
        exact Or.inr ⟨fun h => hc h.acyclic, _, rfl⟩

/-- What is accepted closes, and is the closure of its sources in order. -/
theorem parseExplicitBundle_parsed {sha : Sha256}
    {cl : SyntaxFactClosure} (h : parseExplicitBundle sha req = .parsed cl) :
    Closes req ∧ ∃ ordered, topologicalSources req.sources = some ordered ∧
      Ordered req.sources ordered ∧ ordered.Perm req.sources ∧
      cl = closureFrom sha req.entryPath ordered := by
  rcases parseExplicitBundle_cases sha req with
    ⟨hc, ordered, hres, hord, hperm, hp⟩ | ⟨-, es, hrej⟩
  · exact ⟨hc, ordered, hres, hord, hperm,
      (ParseExplicitBundleResult.parsed.inj (hp.symm.trans h)).symm⟩
  · exact absurd (hrej.symm.trans h) (by simp)

/-- Trust is handed on along imports. -/
theorem trusted_of_reached (hv : ∀ source ∈ ss, ValidSource ss source)
    (hnam : (ss.map ExplicitFactSource.namespaceName).Nodup) (hsrc : source ∈ ss)
    (ht : source.authority = .trusted) {rq : ExplicitFactSource}
    (h : Relation.ReflTransGen (Imports ss) source rq) :
    rq ∈ ss ∧ rq.authority = .trusted := by
  induction h with
  | refl => exact ⟨hsrc, ht⟩
  | tail _ hi ih =>
    obtain ⟨hmem, e, he, hn⟩ := hi
    obtain ⟨fd, hf, hfn, htr⟩ :=
      ((hv _ ih.1).imports e he).required
    have hs := inj_on_of_nodup_map hnam hf hmem (hfn.trans hn.symm)
    exact ⟨hmem, hs ▸ htr ih.2⟩

/-- **Explicit bundles close correctly**: for every bundle the six conditions decide; the modules
are the sources, each behind what it imports and of the least path among those that may come
next; what a trusted module reaches is trusted; and the order of the sources does not matter. -/
theorem bundles_close (sha : Sha256) :
    (∀ request, (∃ closure, parseExplicitBundle sha request = .parsed closure) ↔ Closes request) ∧
    (∀ request closure, parseExplicitBundle sha request = .parsed closure →
      ∃ ordered : List ExplicitFactSource, ordered.Perm request.sources ∧
        closure = closureFrom sha request.entryPath ordered ∧
        ∀ front source back, ordered = front ++ source :: back →
          (∀ required, Imports request.sources source required → required ∈ front) ∧
          ∀ other ∈ request.sources, other ∉ front →
            (∀ required, Imports request.sources other required → required ∈ front) →
              source.path ≤ other.path) ∧
    (∀ request closure, parseExplicitBundle sha request = .parsed closure →
      ∀ source ∈ request.sources, source.authority = .trusted → ∀ required,
        Relation.ReflTransGen (Imports request.sources) source required →
          required.authority = .trusted) ∧
    (∀ request closure others, parseExplicitBundle sha request = .parsed closure →
      request.sources.Perm others →
        parseExplicitBundle sha ⟨request.entryPath, others⟩ = .parsed closure) := by
  refine ⟨?_, ?_, ?_, ?_⟩
  · intro request
    rcases parseExplicitBundle_cases sha request with
      ⟨hc, ordered, -, -, -, hp⟩ | ⟨hop, es, hrej⟩
    · exact ⟨fun _ => hc, fun _ => ⟨_, hp⟩⟩
    · refine ⟨?_, fun h => absurd h hop⟩
      rintro ⟨closure, hp⟩
      exact absurd (hrej.symm.trans hp) (by simp)
  · intro request closure h
    obtain ⟨hc, ordered, -, hord, hperm, hcl⟩ := parseExplicitBundle_parsed h
    refine ⟨ordered, hperm, hcl, ?_⟩
    intro front source back hsp
    have hl := hord.least front source back hsp
    have hmem : ∀ other ∈ request.sources,
        other.path ∈ front.map ExplicitFactSource.path ↔ other ∈ front := by
      intro other ho
      refine ⟨fun hpa => ?_, fun hfr => mem_map_of_mem hfr⟩
      obtain ⟨fd, hf, hfp⟩ := mem_map.mp hpa
      have hin := hperm.mem_iff.mp (hsp ▸ mem_append_left _ hf)
      rwa [inj_on_of_nodup_map hc.paths hin ho hfp] at hf
    have hre : ∀ other ∈ request.sources,
        dependenciesSelected other request.sources (front.map ExplicitFactSource.path) = true ↔
          ∀ required, Imports request.sources other required → required ∈ front := by
      intro other ho
      rw [dependenciesSelected_iff hc.namespaces (hc.valid other ho)]
      exact forall₂_congr fun required hi => hmem required hi.1
    refine ⟨(hre source hl.1).mp hl.2.1.2, ?_⟩
    intro other ho hnew hd
    exact hl.2.2 other ho ⟨fun hpa => hnew ((hmem other ho).mp hpa), (hre other ho).mpr hd⟩
  · intro request closure h source hsrc ht required hr
    obtain ⟨hc, -⟩ := parseExplicitBundle_parsed h
    exact (trusted_of_reached hc.valid hc.namespaces hsrc ht hr).2
  · intro request closure others h hperm
    obtain ⟨hc, ordered, hres, -, -, rfl⟩ := parseExplicitBundle_parsed h
    rcases parseExplicitBundle_cases sha ⟨request.entryPath, others⟩ with
      ⟨-, os', hres', -, -, hp⟩ | ⟨hop, -⟩
    · rw [hp]
      dsimp only at hres' ⊢
      rw [topologicalSources_perm hperm hc.paths hc.namespaces, hres] at hres'
      rw [Option.some.inj hres']
    · exact absurd (hc.perm hperm) hop

end Beagle.Parser
