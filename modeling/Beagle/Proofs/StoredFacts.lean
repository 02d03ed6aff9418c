/-
A datum that went through text and a store.

The lines of a datum read back as its facts with leaf values as strings, in whatever
order the lines come.  Under new numbers and beside facts that leave them alone, they
still give the datum; and the root is found, since every other node of the datum is
named as a child and no node outside it is taken for the wrapper.

The occurrence projection is lossless.

Facts build the datum they were written from; and so do facts that were written to
lines, read back in any order, given new numbers and put among facts that leave the
datum alone.  Positions, types and comments leave it alone wherever they stand.  What
does not is a left-over node that names the root as its child, since the root is known
by having no parent.
-/
import Beagle.Proofs.Lossless

namespace Beagle.Facts

open List

section

variable {ν : Type}

/-! ### Lines -/

/-- The text of a leaf's value. -/
def leafText (numerals : Numerals ν) : Atom ν → String
  | .symbol name => name
  | .string text => text
  | .keyword name => name
  | .boolean value => if value then "true" else "false"
  | .char c => String.singleton c
  | .integer n => toString n
  | .number x => numerals.write x

theorem encodeLeaf_kind (ns : Numerals ν) (a : Atom ν) :
    encodeLeaf ns a.kind a = some (leafText ns a) := by
  cases a with
  | boolean v => cases v <;> rfl
  | _ => rfl

theorem decodeLeaf_leafText {ns : Numerals ν} (hr : ns.ReadsBack) (a : Atom ν) :
    decodeLeaf ns a.kind (.string (leafText ns a)) = some a := by
  cases a with
  | symbol nm => rfl
  | string tx => rfl
  | keyword nm => rfl
  | boolean v => cases v <;> rfl
  | char c => simp [decodeLeaf, Atom.kind, leafText]
  | integer n =>
    have hre : ns.read n.repr = some (.inl n) := hr.integer n
    simp [decodeLeaf, Atom.kind, leafText, hre]
  | number x => simp [decodeLeaf, Atom.kind, leafText, hr.number x]

/-- A fact as it is read back. -/
def asRead (numerals : Numerals ν) (t : Triple ν) : Triple ν :=
  if t.pred = "v" then ⟨t.subj, "v", .string (leafText numerals t.obj)⟩ else t

/-- What is written for a fact. -/
def lineText (numerals : Numerals ν) (t : Triple ν) : String :=
  ednLine t.subj (ednString t.pred) (if t.pred = "v" then ednString (leafText numerals t.obj)
    else if t.pred = "kind" then ednString (displayAtom numerals t.obj)
    else (displayAtom numerals t.obj).toList)

variable {d : Datum ν} {n : Nat} {t : Triple ν}

theorem kindOf_of_mem {id : Nat} {k : String} (h : kindFact id k ∈ (walk n d).2) :
    kindOf (walk n d).2 id = some (.string k) := by
  unfold kindOf
  cases hf : (walk n d).2.reverse.find? fun t => t.pred == "kind" && t.subj == (id : Int) with
  | none =>
    have hno := find?_eq_none.mp hf (kindFact id k) (mem_reverse.mpr h)
    exact absurd (by simp [kindFact]) hno
  | some t =>
    have ht := find?_some hf
    simp only [Bool.and_eq_true, beq_iff_eq] at ht
    have hmem := mem_reverse.mp (mem_of_find?_eq_some hf)
    have hs := walk_functional d hmem h ht.2 (congrArg place ht.1)
    rw [hs]
    rfl

/-- The line of a fact that names a child. -/
theorem tripleLine_ref (ns : Numerals ν) (ks : Int → Option (Atom ν)) {id c : Nat}
    {p : String} (hp : isRefPred p = true) :
    let t : Triple ν := ⟨id, p, .integer c⟩
    tripleLine ns ks t = some (lineText ns t) ∧
      readTriple (lineText ns t) = some (asRead ns t) := by
  intro t
  have hk : p ≠ "kind" := fun heq => absurd hp (by rw [heq]; exact Bool.eq_false_iff.mp isRefPred_kind)
  have hv : p ≠ "v" := fun heq => absurd hp (by rw [heq]; exact Bool.eq_false_iff.mp isRefPred_v)
  have hl : lineText ns t = ednLine id (ednString p) (toString (c : Int)).toList := by
    show ednLine _ _ (if p = "v" then _ else if p = "kind" then _ else _) = _
    rw [if_neg hv, if_neg hk]
    rfl
  have hr : asRead ns t = t := if_neg hv
  constructor
  · rw [hl]
    show (if p = "kind" then _ else if p = "v" then _ else _) = _
    rw [if_neg hk, if_neg hv]
    rfl
  · rw [hl, hr]
    exact readTriple_ednLine (readAtom_integer (c : Int) (by decide) [])

/-- **The line of a fact, and what it reads as.** -/
theorem tripleLine_walk (ns : Numerals ν) (ht : t ∈ (walk n d).2) :
    tripleLine ns (kindOf (walk n d).2) t = some (lineText ns t) ∧
      readTriple (lineText ns t) = some (asRead ns t) := by
  cases written_of_mem_walk d ht with
  | kind id kind =>
    have hl : lineText ns (kindFact id kind) = ednLine id (ednString "kind") (ednString kind) := by
      simp [lineText, kindFact, displayAtom]
    have hr : asRead ns (kindFact id kind) = kindFact id kind := by
      simp [asRead, kindFact]
    rw [hl, hr]
    exact ⟨rfl, readTriple_ednLine (readAtom_ednString kind [']'])⟩
  | value id a hk =>
    have hl : lineText ns ⟨id, "v", a⟩ =
        ednLine id (ednString "v") (ednString (leafText ns a)) := by
      simp [lineText]
    have hr : asRead ns ⟨id, "v", a⟩ = ⟨id, "v", .string (leafText ns a)⟩ := by
      simp [asRead]
    rw [hl, hr]
    refine ⟨?_, readTriple_ednLine (readAtom_ednString (leafText ns a) [']'])⟩
    simp only [tripleLine, kindOf_of_mem hk, encodeLeaf_kind, Option.map_some]
    rfl
  | slot id i c => exact tripleLine_ref ns _ (isRefPred_slotPredicate i c)
  | tail id c => exact tripleLine_ref ns _ rfl

theorem datumToEdnLines_eq (ns : Numerals ν) (d : Datum ν) :
    datumToEdnLines ns d = some ((walk 0 d).2.map (lineText ns)) :=
  mapM_of_forall fun _ ht => (tripleLine_walk ns ht).1

/-- **The lines of a datum, in any order, read as its facts.** -/
theorem readEdnTriples_lines (ns : Numerals ν) (d : Datum ν) {s : List String}
    (hp : s.Perm ((walk 0 d).2.map (lineText ns))) :
    ∃ ts, readEdnTriples s = some ts ∧ ts.Perm ((walk 0 d).2.map (asRead ns)) := by
  let rd : String → Triple ν := fun l => (readTriple l).getD ⟨0, "", .integer 0⟩
  have hli : ∀ l ∈ s, readTriple l = some (rd l) := by
    intro l hl
    obtain ⟨t, ht, rfl⟩ := mem_map.mp (hp.mem_iff.mp hl)
    show _ = some ((readTriple (lineText ns t)).getD _)
    rw [(tripleLine_walk ns ht).2, Option.getD_some]
  have hb : ∀ l ∈ s, (l.toList.head? == some '[') = true := by
    intro l hl
    obtain ⟨t, ht, rfl⟩ := mem_map.mp (hp.mem_iff.mp hl)
    unfold lineText ednLine
    rw [String.toList_ofList]
    rfl
  refine ⟨s.map rd, ?_, ?_⟩
  · unfold readEdnTriples
    rw [filter_eq_self.mpr hb]
    exact mapM_of_forall hli
  · have hba : ((walk 0 d).2.map (lineText ns)).map rd = (walk 0 d).2.map (asRead ns) := by
      rw [map_map]
      refine map_congr_left ?_
      intro t ht
      show (readTriple (lineText ns t)).getD _ = _
      rw [(tripleLine_walk ns ht).2, Option.getD_some]
    rw [← hba]
    exact hp.map rd

/-! ### The root -/

theorem ednTriplesToDatum_of_root [DecidableEq ν] {w : HashOrder} {ts : List (Triple ν)}
    {r : Int} (hr : ednRoot w (triplesToProps ts) = some r) (ns : Numerals ν)
    (k : Nat) :
    ednTriplesToDatum w ns k ts = build w (decodeLeaf ns) (triplesToProps ts) k (.integer r) := by
  show (ednRoot w (triplesToProps ts)).bind _ = _
  rw [hr, Option.bind_some]

theorem isReferenced_iff [DecidableEq ν] {ps : Props ν} {id : Int} : isReferenced ps id = true ↔
      ∃ s p, isRefPred p = true ∧ ps.ref s p = some (.integer id) := by
  unfold isReferenced
  rw [any_eq_true]
  constructor
  · rintro ⟨nd, hn, hany⟩
    obtain ⟨e, he, ht⟩ := any_eq_true.mp hany
    rw [Bool.and_eq_true, beq_iff_eq] at ht
    refine ⟨nd.1, e.1, ht.1, ?_⟩
    rw [← mem_node_entries, mem_props_entries hn, ← ht.2]
    exact he
  · rintro ⟨s, p, hp, href⟩
    have hn : (⟨s, ps.node s⟩ : (_ : Int) × Node ν) ∈ ps.entries :=
      AList.mem_lookup_iff.mp (lookup_of_ref href)
    refine ⟨_, hn, any_eq_true.mpr ⟨⟨p, .integer id⟩, mem_node_entries.mpr href, ?_⟩⟩
    rw [Bool.and_eq_true, beq_iff_eq]
    exact ⟨hp, rfl⟩

theorem find?_eq_some_of_unique {α : Type} {p : α → Bool} {x : α} {xs : List α} (hmem : x ∈ xs)
    (hx : p x = true) (hu : ∀ y ∈ xs, p y = true → y = x) : xs.find? p = some x := by
  cases hf : xs.find? p with
  | none => exact absurd hx (find?_eq_none.mp hf x hmem)
  | some y => rw [hu y (mem_of_find?_eq_some hf) (find?_some hf)]

/-- A fact that names a child still does, under the child's new number. -/
theorem carried_ref (ρ : Int → Int) (τ : Nat → Nat) (form : Atom ν → Atom ν)
    {fs : List (Triple ν)} (h : Written fs t) :
    isRefPred (carried ρ τ form t).pred = isRefPred t.pred ∧
      (isRefPred t.pred = true → ∀ c : Nat, t.obj = .integer c →
        (carried ρ τ form t).obj = .integer (ρ c)) := by
  cases h with
  | kind id kind =>
    rw [carried_kindFact]
    exact ⟨rfl, fun href => absurd href (Bool.eq_false_iff.mp isRefPred_kind)⟩
  | value id a _ =>
    rw [carried_value]
    exact ⟨rfl, fun href => absurd href (Bool.eq_false_iff.mp isRefPred_v)⟩
  | slot id i ch =>
    rw [carried_slotFact]
    refine ⟨(isRefPred_slotText _ _).trans (isRefPred_slotPredicate i ch).symm, ?_⟩
    intro _ c hc
    have hs : (ch : Int) = c := Atom.integer.inj hc
    rw [← hs]
  | tail id ch =>
    rw [carried_tailFact]
    refine ⟨rfl, ?_⟩
    intro _ c hc
    have hs : (ch : Int) = c := Atom.integer.inj hc
    rw [← hs]

section Root

variable [DecidableEq ν] {w : HashOrder} {ρ : Int → Int} {τ : Nat → Nat} {form : Atom ν → Atom ν}
  {forms : Datum ν} {extra stored : List (Triple ν)}

/-- The renaming keeps the numbers of a walk apart. -/
def Apart (ρ : Int → Int) (d : Datum ν) : Prop :=
  ∀ s s', InRange 0 d s → InRange 0 d s' → ρ (s : Int) = ρ (s' : Int) → s = s'

/-- **Of the nodes of a datum exactly the first is nobody's child.** -/
theorem isReferenced_live {d : Datum ν} (ha : Apart ρ d)
    (hbes : Beside w ((walk 0 d).2.map (carried ρ τ form)) extra stored (ρ 1)) {s : Nat}
    (hs : InRange 0 d s) : isReferenced (triplesToProps stored) (ρ s) = false ↔ s = 1 := by
  have hg := gives_of_perm ha hbes.perm hbes.apart
  have hone : InRange 0 d 1 := ⟨Nat.zero_lt_one, lt_walk d 0⟩
  constructor
  · intro hf
    by_cases hfst : s = 1
    · exact hfst
    · have hpa : 0 + 1 < s := Nat.lt_of_le_of_ne hs.1 (fun heq => hfst heq.symm)
      obtain ⟨t, ht, href, hobj⟩ := exists_parent d hpa hs.2
      obtain ⟨u, hu, hr⟩ := subj_of_mem_walk d ht
      have hcar := carried_ref ρ τ form (written_of_mem_walk d ht)
      have hh := (hg u hr (carried ρ τ form t).pred (carried ρ τ form t).obj
        (structural_carried (written_of_mem_walk d ht))).mpr ⟨t, ht, hu, rfl, rfl⟩
      rw [hcar.2 href s hobj] at hh
      have hyes := isReferenced_iff.mpr ⟨ρ u, _, hcar.1.trans href, hh⟩
      exact absurd hyes (Bool.eq_false_iff.mp hf)
  · rintro rfl
    refine Bool.eq_false_iff.mpr ?_
    intro hyes
    obtain ⟨u, p, hp, hh⟩ := isReferenced_iff.mp hyes
    rcases List.mem_append.mp (hbes.perm.mem_iff.mp (mem_of_ref hh)) with hmem | hmem
    · obtain ⟨t, ht, hcar⟩ := mem_map.mp hmem
      have hk := carried_ref ρ τ form (written_of_mem_walk d ht)
      have href : isRefPred t.pred = true := by
        rw [← hk.1, hcar]
        exact hp
      obtain ⟨c, hc, hlow, hhi⟩ := child_of_mem_walk d ht href
      have hobj := hk.2 href c hc
      rw [hcar] at hobj
      have hsa : ρ ((1 : Nat) : Int) = ρ c := (Atom.integer.inj hobj)
      have hco := ha 1 c hone ⟨Nat.lt_of_succ_lt hlow, hhi⟩ hsa
      omega
    · exact hbes.rootFree _ hmem hp rfl

/-- The first node of a wrapped datum is a wrapper. -/
theorem isBeagleFileWrapper_root (hf : form (.symbol "beagle-file") = .string "beagle-file")
    {ps : Props ν} (hg : Gives ρ τ form ps 0 (wrap forms)) :
    isBeagleFileWrapper w ps (ρ 1) = true := by
  have hseq := IsSeq.list (.atom (.symbol "beagle-file")) forms
  have hchs := hg.children w hseq
  have hkid : (1, .atom (.symbol "beagle-file")) ∈
      kidsOf 0 (splitImproper (wrap forms)).1 (splitImproper (wrap forms)).2 := mem_cons_self
  have hh := (hg.kid hseq hkid).leaf.2
  rw [hf] at hh
  have hs : starts (0 + 1) (splitImproper (wrap forms)).1 =
      (1, .atom (.symbol "beagle-file")) :: starts 2 (splitImproper forms).1 := by
    show (1, _) :: starts (walk 1 (.atom (.symbol "beagle-file"))).1 _ = _
    rw [walk]
  rw [show splitImproper (.pair (.atom (.symbol "beagle-file")) forms) =
    splitImproper (wrap forms) from rfl, hs, map_cons] at hchs
  unfold isBeagleFileWrapper
  rw [show ρ 1 = ρ ((0 + 1 : Nat) : Int) from rfl, hchs]
  show (ps.ref (ρ ((1 + 1 : Nat) : Int)) "v" == _) = true
  rw [hh]
  exact beq_self_eq_true _

/-- **The wrapper of a datum is the root.** -/
theorem ednRoot_eq (hfo : form (.symbol "beagle-file") = .string "beagle-file")
    (ha : Apart ρ (wrap forms))
    (hbes : Beside w ((walk 0 (wrap forms)).2.map (carried ρ τ form)) extra stored (ρ 1)) :
    ednRoot w (triplesToProps stored) = some (ρ 1) := by
  have hg := gives_of_perm ha hbes.perm hbes.apart
  have hone : InRange 0 (wrap forms) 1 := ⟨Nat.zero_lt_one, lt_walk _ 0⟩
  have hkey : ρ 1 ∈ (triplesToProps stored).keys := by
    obtain ⟨t, ht, hsu⟩ := exists_fact (wrap forms) hone
    refine mem_keys_triplesToProps.mpr ⟨carried ρ τ form t, ?_, ?_⟩
    · exact hbes.perm.mem_iff.mpr (mem_append_left _ (mem_map_of_mem ht))
    · rw [subj_carried, hsu]
      rfl
  have hfr := (isReferenced_live ha hbes hone).mpr rfl
  have hf : ((w.order (triplesToProps stored).keys).filter
      fun id => !isReferenced (triplesToProps stored) id).find?
        (isBeagleFileWrapper w (triplesToProps stored)) = some (ρ 1) := by
    refine find?_eq_some_of_unique ?_ (isBeagleFileWrapper_root hfo hg) ?_
    · refine mem_filter.mpr ⟨(w.perm _).mem_iff.mpr hkey, ?_⟩
      rw [show isReferenced (triplesToProps stored) (ρ 1) = false from hfr]
      rfl
    · intro id hid hw
      have hn : isReferenced (triplesToProps stored) id = false := by
        simpa using (mem_filter.mp hid).2
      by_cases hl : ∃ s, InRange 0 (wrap forms) s ∧ id = ρ s
      · obtain ⟨s, hs, rfl⟩ := hl
        rw [(isReferenced_live ha hbes hs).mp hn]
        rfl
      · have hout : ∀ t ∈ (walk 0 (wrap forms)).2.map (carried ρ τ form), t.subj ≠ id := by
          intro t ht hsu
          obtain ⟨u, hu, rfl⟩ := mem_map.mp ht
          obtain ⟨s, hs, hr⟩ := subj_of_mem_walk _ hu
          refine hl ⟨s, hr, ?_⟩
          rw [← hsu, subj_carried, hs]
        have hnot := hbes.oneWrapper id hout hn
        exact absurd hw (Bool.eq_false_iff.mp hnot)
  show (find? _ _).or _ = _
  rw [hf, Option.some_or]

end Root

end

variable {ν : Type}

example : ∀ p ∈ ["line", "col", "pos", "span", "type", "comment0", "seg0", "placement"],
    isStructural p = false := by decide

/-- A fact as the store gives it back is the fact of the walk, carried. -/
theorem rename_asRead (ns : Numerals ν) (ρ : Int → Int) (τ : Nat → Nat) (t : Triple ν) :
    rename ρ τ (asRead ns t) = carried ρ τ (fun a => .string (leafText ns a)) t := by
  unfold carried asRead
  by_cases h : t.pred = "v"
  · have hr : retie τ "v" = "v" := rfl
    rw [if_pos h, if_pos h]
    simp [rename, hr, isRefPred_v]
  · rw [if_neg h, if_neg h]

/-- **The occurrence projection is lossless.** -/
theorem occurrences_lose_nothing [DecidableEq ν] {numerals : Numerals ν}
    (hreads : numerals.ReadsBack) (walked : HashOrder) :
    (∀ (d : Datum ν) (fuel : Nat), nodeCount d ≤ fuel →
      factsToDatum walked fuel (datumToFacts d).1 (datumToFacts d).2 = some d) ∧
    ∀ forms : Datum ν, ∃ lines, datumToEdnLines numerals (wrap forms) = some lines ∧
      ∀ shuffled : List String, shuffled.Perm lines → ∃ ts, readEdnTriples shuffled = some ts ∧
        ∀ (ρ : Int → Int) (τ : Nat → Nat), Set.InjOn ρ {id | ∃ t ∈ ts, t.subj = id} →
          ∀ extra stored, Beside walked (ts.map (rename ρ τ)) extra stored
              (ρ (datumToFacts (wrap forms)).1) →
            ∀ fuel, nodeCount (wrap forms) ≤ fuel →
              ednTriplesToDatum walked numerals fuel stored = some (wrap forms) := by
  refine ⟨fun d fuel hf => factsToDatum_datumToFacts walked d hf, ?_⟩
  intro forms
  refine ⟨_, datumToEdnLines_eq numerals (wrap forms), ?_⟩
  intro shuffled hsh
  obtain ⟨ts, hts, hp⟩ := readEdnTriples_lines numerals (wrap forms) hsh
  refine ⟨ts, hts, ?_⟩
  intro ρ τ hinj extra stored hbes fuel hf
  let form : Atom ν → Atom ν := fun a => .string (leafText numerals a)
  have hcar : (ts.map (rename ρ τ)).Perm ((walk 0 (wrap forms)).2.map (carried ρ τ form)) := by
    have hsa : rename ρ τ ∘ asRead numerals = carried ρ τ form :=
      funext (rename_asRead numerals ρ τ)
    have hm := hp.map (rename ρ τ)
    rw [map_map, hsa] at hm
    exact hm
  have hsu : ∀ s, InRange 0 (wrap forms) s → ∃ t ∈ ts, t.subj = s := by
    intro s hs
    obtain ⟨t, ht, hts⟩ := exists_fact (wrap forms) hs
    refine ⟨asRead numerals t, hp.mem_iff.mpr (mem_map_of_mem ht), ?_⟩
    unfold asRead
    by_cases hv : t.pred = "v"
    · rw [if_pos hv]
      exact hts
    · rw [if_neg hv]
      exact hts
  have ha : Apart ρ (wrap forms) := by
    intro s s' hs hs' heq
    exact Int.ofNat_inj.mp (hinj (hsu s hs) (hsu s' hs') heq)
  have hbes' : Beside walked ((walk 0 (wrap forms)).2.map (carried ρ τ form)) extra stored
      (ρ 1) := by
    refine ⟨hbes.perm.trans (hcar.append_right extra), ?_, hbes.rootFree, ?_⟩
    · rintro e he ⟨t, ht, hsa⟩
      exact hbes.apart e he ⟨t, hcar.mem_iff.mpr ht, hsa⟩
    · intro id hout
      exact hbes.oneWrapper id fun t ht => hout t (hcar.mem_iff.mp ht)
  have hr := ednRoot_eq rfl ha hbes'
  have hg := gives_of_perm ha hbes'.perm hbes'.apart
  rw [ednTriplesToDatum_of_root hr]
  exact build_walk (decodeLeaf_leafText hreads) (wrap forms) hg fuel
    (by rw [Nat.zero_add]; exact hf)

/-! ### A file with left-over facts -/

/-- Numbers that are all exact integers. -/
def exactNumerals : Numerals Empty where
  write x := nomatch x
  read s := (readInteger s.toList).map Sum.inl

theorem exactNumerals_readsBack : exactNumerals.ReadsBack where
  integer n := by
    show (readInteger (toString n).toList).map Sum.inl = _
    rw [readInteger_toString]
    rfl
  number x := nomatch x

/-- A table walked from its last entry on. -/
def lastFirst : HashOrder := ⟨fun l => l.reverse, fun l => reverse_perm l⟩

/-- A subject with no facts is no wrapper. -/
theorem not_isBeagleFileWrapper [DecidableEq ν] {w : HashOrder} {ts : List (Triple ν)}
    {id : Int} (h : ∀ t ∈ ts, t.subj ≠ id) :
    isBeagleFileWrapper w (triplesToProps ts) id = false := by
  have hk : id ∉ (triplesToProps ts).keys := by
    intro hmem
    obtain ⟨t, ht, hs⟩ := mem_keys_triplesToProps.mp hmem
    exact h t ht hs
  have hn : (triplesToProps ts).node id = ∅ := by
    unfold Props.node
    rw [AList.lookup_eq_none.mpr fun hmem => hk (AList.mem_keys.mp hmem), Option.getD_none]
  have hchs : orderedSlotChildren w (∅ : Node ν) = [] := by
    unfold orderedSlotChildren
    rw [AList.empty_entries, perm_nil.mp (w.perm _)]
    rfl
  unfold isBeagleFileWrapper
  rw [hn, hchs]

/-- `(beagle-file 7)`. -/
def sevenFile : Datum Empty := wrap (.pair (.atom (.integer 7)) .null)

/-- The lines of `sevenFile`, the last first. -/
def sevenLines : List String :=
  ["[1 \"f131072~3\" 3]", "[3 \"v\" \"7\"]", "[3 \"kind\" \"number\"]", "[1 \"f65536~2\" 2]",
    "[2 \"v\" \"beagle-file\"]", "[2 \"kind\" \"symbol\"]", "[1 \"kind\" \"list\"]"]

/-- Its facts in that order under numbers from 101 on. -/
def sevenFacts : List (Triple Empty) :=
  [⟨101, "f131072~103", .integer 103⟩, ⟨103, "v", .string "7"⟩, ⟨103, "kind", .string "number"⟩,
    ⟨101, "f65536~102", .integer 102⟩, ⟨102, "v", .string "beagle-file"⟩,
    ⟨102, "kind", .string "symbol"⟩, ⟨101, "kind", .string "list"⟩]

/-- The line of a node, and a list that once held the number and is nobody's child. -/
def sevenExtra : List (Triple Empty) :=
  [⟨103, "line", .integer 4⟩, ⟨900, "kind", .string "list"⟩, ⟨900, "f65536~103", .integer 103⟩]

theorem seven_read_back :
    ednTriplesToDatum lastFirst exactNumerals 3 (sevenExtra ++ sevenFacts) = some sevenFile := by
  obtain ⟨lines, hlines, hread⟩ :=
    (occurrences_lose_nothing exactNumerals_readsBack lastFirst).2 (.pair (.atom (.integer 7)) .null)
  have hwritten : datumToEdnLines exactNumerals sevenFile = some sevenLines.reverse := by
    decide
  have hsame : lines = sevenLines.reverse := Option.some.inj (hlines.symm.trans hwritten)
  obtain ⟨ts, hts, hgiven⟩ := hread sevenLines (hsame ▸ (reverse_perm _).symm)
  have hrename : (readEdnTriples sevenLines : Option (List (Triple Empty))).map
      (List.map (rename (· + 100) (· + 100))) = some sevenFacts := by
    decide
  rw [hts] at hrename
  have hfacts : ts.map (rename (· + 100) (· + 100)) = sevenFacts := Option.some.inj hrename
  refine hgiven (· + 100) (· + 100) (fun a _ b _ hab => by simpa using hab) sevenExtra _ ?_ 3 ?_
  · rw [hfacts]
    refine ⟨perm_append_comm, by decide, by decide, ?_⟩
    intro id hout _
    by_cases hstale : id = 900
    · subst hstale
      decide
    · refine not_isBeagleFileWrapper ?_
      intro t ht
      rcases List.mem_append.mp ht with hextra | hlive
      · have hsubj : t.subj = 103 ∨ t.subj = 900 := by
          revert t
          decide
        rcases hsubj with h | h
        · exact fun heq => hout ⟨103, "v", .string "7"⟩ (by decide) (h.symm.trans heq)
        · exact fun heq => hstale (heq.symm.trans h)
      · exact hout t hlive
  · decide

/-- A list without a tail. -/
theorem build_list {w : HashOrder} {de : String → Atom ν → Option (Atom ν)}
    {ps : Props ν} {id : Int} {ki : List (Atom ν)} (k : Nat)
    (hk : ps.ref id "kind" = some (.string "list")) (ht : ps.ref id "tail" = none)
    (hki : orderedSlotChildren w (ps.node id) = ki) :
    build w de ps (k + 1) (.integer id) =
      (ki.mapM (build w de ps k)).map fun es => consAll es .null := by
  cases he : ki.mapM (build w de ps k) with
  | none =>
    have hl := lookup_of_ref hk
    unfold Props.ref at hk
    simp only [build, hl, Option.bind_eq_bind, Option.bind_some, hk, hki, he]
    rfl
  | some es =>
    rw [build_seq k hk (Or.inl rfl) (by rw [hki]; exact he) (by rw [ht])]
    rfl

/-- The facts of `sevenFile` as they are read, and a node of nobody's that names the root as
its child. -/
def staleFacts : List (Triple Empty) :=
  [⟨1, "f131072~3", .integer 3⟩, ⟨3, "v", .string "7"⟩, ⟨3, "kind", .string "number"⟩,
    ⟨1, "f65536~2", .integer 2⟩, ⟨2, "v", .string "beagle-file"⟩, ⟨2, "kind", .string "symbol"⟩,
    ⟨1, "kind", .string "list"⟩, ⟨900, "kind", .string "list"⟩, ⟨900, "f65536~1", .integer 1⟩]

theorem build_staleFacts (k : Nat) :
    build lastFirst (decodeLeaf exactNumerals) (triplesToProps staleFacts) (k + 1) (.integer 900) =
      ([.integer 1].mapM
        (build lastFirst (decodeLeaf exactNumerals) (triplesToProps staleFacts) k)).map
          fun es => consAll es .null :=
  build_list k (by decide) (by decide) (by decide)

theorem stale_parent_hides_root :
    datumToEdnLines exactNumerals sevenFile = some sevenLines.reverse ∧
      readEdnTriples sevenLines = some (staleFacts.take 7) ∧
      (∀ t ∈ staleFacts.take 7, t.subj ≠ 900) ∧ (∀ t ∈ staleFacts.drop 7, t.subj = 900) ∧
      isReferenced (triplesToProps staleFacts) 900 = false ∧
      ∀ fuel, ednTriplesToDatum lastFirst exactNumerals fuel staleFacts ≠ some sevenFile := by
  refine ⟨by decide, by decide, by decide, by decide, by decide, ?_⟩
  intro fuel heq
  have hr : ednRoot lastFirst (triplesToProps staleFacts) = some 900 := by decide
  rw [ednTriplesToDatum_of_root hr] at heq
  cases fuel with
  | zero => simp [build] at heq
  | succ fuel =>
    rw [build_staleFacts] at heq
    generalize build lastFirst (decodeLeaf exactNumerals) (triplesToProps staleFacts) fuel = f
      at heq
    -- what comes back has one element, and the file has two
    cases hc : f (.integer 1) with
    | none => simp [hc] at heq
    | some x => simp [hc, consAll, sevenFile, wrap] at heq

end Beagle.Facts
