/-
What the rules can derive is finite.

New values come only from builtins, and a rule with a builtin derives a relation that
it does not depend on.  So the values of a relation lie at a level of finitely many
values that its rank fixes, each level closing the one below under the builtins once
more.  The rows a text search answers with add nothing: they hold values of its corpus
and the needle, and what else they hold is no needle.
-/
import Beagle.Query.Plan
import Beagle.Query.Semantics

namespace Beagle.Query

open Beagle.Lib Beagle.Store List

/-! ### Values -/

/-- One of the values, up to likeness. -/
def OneOf (values : List Term) (v : Term) : Prop := ∃ w ∈ values, Alike w v

variable {v : Term}

theorem OneOf.of_mem {vs : List Term} (h : v ∈ vs) : OneOf vs v :=
  ⟨v, h, Alike.refl v⟩

variable {vs' : List Term}

theorem OneOf.mono {vs : List Term} (hsub : ∀ v ∈ vs, v ∈ vs') (h : OneOf vs v) : OneOf vs' v := by
  obtain ⟨w, hw, hal⟩ := h
  exact ⟨w, hsub w hw, hal⟩

theorem OneOf.congr {vs : List Term} {v' : Term} (h : OneOf vs v) (hal : Alike v v') :
    OneOf vs v' := by
  obtain ⟨w, hw, hwv⟩ := h
  exact ⟨w, hw, hwv.trans hal⟩

/-- A string is one of the values only as itself. -/
theorem OneOf.string {vs : List Term} {s : String} (h : OneOf vs (.atom (.string s))) :
    .atom (.string s) ∈ vs := by
  obtain ⟨w, hw, hal⟩ := h
  rcases hal.symm.of_atom with rfl | ⟨f, g, hf, -⟩
  · exact hw
  · simp at hf

section

variable (D : Doubles) (operators : List Keyword)

/-- The values and what one builtin makes of two of them. -/
def widen (values : List Term) : List Term :=
  values ++ operators.flatMap fun operator => values.flatMap fun left =>
    values.filterMap fun right =>
      match builtinValue D operator left right with
      | .ok value => value
      | .error _ => none

def level (values : List Term) : Nat → List Term
  | 0 => values
  | n + 1 => widen D operators (level values n)

variable {D operators} {vs : List Term}

theorem level_mono {m n : Nat} (h : m ≤ n) :
    ∀ v ∈ level D operators vs m, v ∈ level D operators vs n := by
  induction n, h using Nat.le_induction with
  | base => exact fun v hv => hv
  | succ n _ ih => exact fun v hv => mem_append_left _ (ih v hv)

variable {operator : Keyword} {left right : Term}

theorem oneOf_builtin (hD : D.Lawful) {n : Nat} (hop : operator ∈ operators) {value : Term}
    (hle : OneOf (level D operators vs n) left)
    (hri : OneOf (level D operators vs n) right)
    (hval : builtinValue D operator left right = .ok (some value)) :
    OneOf (level D operators vs (n + 1)) value := by
  obtain ⟨l', hmem, hl⟩ := hle
  obtain ⟨r', hmem', hr⟩ := hri
  have hres := builtinValue_alike hD operator hl hr
  rw [hval] at hres
  cases hval' : builtinValue D operator l' r' with
  | error s =>
    rw [hval'] at hres
    exact hres.elim
  | ok v' =>
    rw [hval'] at hres
    cases v' with
    | none => exact hres.elim
    | some v' =>
      refine ⟨v', mem_append_right _ ?_, hres⟩
      refine mem_flatMap.mpr ⟨operator, hop, mem_flatMap.mpr ⟨l', hmem, ?_⟩⟩
      exact mem_filterMap.mpr ⟨r', hmem', by rw [hval']⟩

/-- A builtin gives a number. -/
theorem builtinValue_not_string {va : Term}
    (h : builtinValue D operator left right = .ok (some va)) (s : String) :
    va ≠ .atom (.string s) := by
  have hint : ∀ {a b : Int64}, (integerBuiltinValue operator a b).map
      (fun va => some (Term.atom (.int va))) = .ok (some va) → va ≠ .atom (.string s) := by
    intro a b hab
    cases hr : integerBuiltinValue operator a b with
    | error sp =>
      rw [hr] at hab
      simp [Except.map] at hab
    | ok res =>
      rw [hr] at hab
      have : va = .atom (.int res) := by simpa [Except.map, eq_comm] using hab
      rw [this]
      simp
  unfold builtinValue at h
  dsimp only at h
  split at h
  · split at h
    · split at h
      · simp at h
      · exact hint h
    · simp at h
  · split at h
    · split at h
      · split at h
        · simp at h
        · simp only [Except.ok.injEq, Option.some.injEq] at h
          rw [← h]
          simp
      · simp at h
    · split at h
      · split at h
        · exact hint h
        · split at h
          · simp only [Except.ok.injEq, Option.some.injEq] at h
            rw [← h]
            simp
          · simp at h
      · simp at h

/-- The strings of every level are the strings of the values. -/
theorem string_of_level {s : String} : ∀ {n : Nat},
    .atom (.string s) ∈ level D operators vs n → .atom (.string s) ∈ vs := by
  intro n
  induction n with
  | zero => exact fun h => h
  | succ n ih =>
    intro h
    rcases List.mem_append.mp h with hold | hnew
    · exact ih hold
    · obtain ⟨operator, -, hl⟩ := mem_flatMap.mp hnew
      obtain ⟨left, -, hr⟩ := mem_flatMap.mp hl
      obtain ⟨right, -, hval⟩ := mem_filterMap.mp hr
      cases hres : builtinValue D operator left right with
      | error sp =>
        rw [hres] at hval
        simp at hval
      | ok va =>
        rw [hres] at hval
        dsimp only at hval
        rw [hval] at hres
        exact absurd rfl (builtinValue_not_string hres s)

end

/-! ### Substitutions over values -/

/-- The substitution binds values from the list. -/
def Over (values : List Term) (σ : Substitution) : Prop :=
  ∀ name v, σ.value name = some v → OneOf values v

variable {σ : Substitution}

theorem Over.mono {vs : List Term} (hsub : ∀ v ∈ vs, v ∈ vs') (h : Over vs σ) : Over vs' σ :=
  fun nm v hv => (h nm v hv).mono hsub

theorem Over.bind {vs : List Term} (h : Over vs σ) (nm : String) (hv : OneOf vs v) :
    Over vs (σ.bind nm v) := by
  intro o w hw
  rw [Substitution.value_bind] at hw
  split at hw
  · cases hw
    exact hv
  · exact h o w hw

theorem Over.unifyAll {vs : List Term} : ∀ {ars : List QueryTerm} {t : Tuple}
    {σ σ' : Substitution}, unifyAll σ ars t = some σ' → Over vs σ →
      (∀ v ∈ t, OneOf vs v) → Over vs σ' := by
  intro ars
  induction ars with
  | nil =>
    intro t σ σ' h hσ _
    cases h
    exact hσ
  | cons a r ih =>
    intro t σ σ' h hσ htup
    cases t with
    | nil =>
      cases h
      exact hσ
    | cons v t =>
      unfold Query.unifyAll at h
      cases huni : unify a v σ with
      | none =>
        rw [huni] at h
        simp at h
      | some next =>
        rw [huni] at h
        refine ih h ?_ fun w hw => htup w (by simp [hw])
        unfold unify at huni
        split at huni
        · split at huni
          · split at huni
            · cases huni
              exact hσ
            · simp at huni
          · cases huni
            exact hσ.bind _ (htup v (by simp))
        · split at huni
          · split at huni
            · cases huni
              exact hσ
            · simp at huni
          · simp at huni

/-- A value of a term whose constant is in the list. -/
theorem Over.termValue {vs : List Term} (h : Over vs σ) {t : QueryTerm}
    (hc : ∀ v, t.value = some v → v ∈ vs) (hv : termValue t σ = some v) :
    OneOf vs v := by
  unfold Query.termValue at hv
  split at hv
  · exact h _ v hv
  · exact .of_mem (hc v hv)

theorem Over.groundValue {vs : List Term} {σ : Substitution} (h : Over vs σ) :
    ∀ {ars : List QueryTerm} {t : Tuple}, (∀ a ∈ ars, ∀ v, a.value = some v → v ∈ vs) →
      groundValue σ ars = some t → ∀ v ∈ t, OneOf vs v := by
  intro ars
  induction ars with
  | nil =>
    intro t _ hgr v hv
    cases hgr
    simp at hv
  | cons a r ih =>
    intro t hc hgr v hv
    unfold Query.groundValue at hgr
    cases hval : Query.termValue a σ with
    | none =>
      rw [hval] at hgr
      simp at hgr
    | some first =>
      cases hr : Query.groundValue σ r with
      | none =>
        rw [hval, hr] at hgr
        simp at hgr
      | some os =>
        rw [hval, hr] at hgr
        cases hgr
        rcases mem_cons.mp hv with rfl | hv
        · exact h.termValue (hc a (by simp)) hval
        · exact ih (fun o ho => hc o (by simp [ho])) hr v hv

/-! ### Text -/

/-- Text relations answer with values of the corpus, and a string besides with itself and values
that are no string. -/
def Reading.Finite (R : Reading) (corpus : List Term) : Prop :=
  ∀ relation needle found, R.text relation needle = .ok found → ∀ row ∈ found, ∀ v ∈ row,
    v ∈ corpus ∨ ∃ s, needle = some (.atom (.string s)) ∧
      (v = .atom (.string s) ∨ ∀ s', v ≠ .atom (.string s'))

/-- What the text relations answer the values with. -/
def textValues (R : Reading) (values : List Term) : List Term :=
  textRelations.flatMap fun relation => values.flatMap fun needle =>
    match R.text relation (some needle) with
    | .ok found => found.flatten
    | .error _ => []

theorem mem_textValues {R : Reading} {vs : List Term} :
    v ∈ textValues R vs ↔ ∃ r ∈ textRelations, ∃ nd ∈ vs, ∃ fd,
      R.text r (some nd) = .ok fd ∧ ∃ row ∈ fd, v ∈ row := by
  unfold textValues
  simp only [mem_flatMap]
  constructor
  · rintro ⟨r, hrel, nd, hn, hv⟩
    cases hf : R.text r (some nd) with
    | error error =>
      rw [hf] at hv
      simp at hv
    | ok fd =>
      rw [hf] at hv
      exact ⟨r, hrel, nd, hn, fd, hf, mem_flatten.mp hv⟩
  · rintro ⟨r, hrel, nd, hn, fd, hf, hv⟩
    refine ⟨r, hrel, nd, hn, ?_⟩
    rw [hf]
    exact mem_flatten.mpr hv

section

variable {D : Doubles} (hD : D.Lawful) {R : Reading} {cs vs : List Term}
  (hfi : R.Finite cs) (hco : ∀ v ∈ cs, v ∈ vs) {operators : List Keyword}

/-- The values of the given ones and of what text searches answer them with, `n` builtins up. -/
def reached (D : Doubles) (R : Reading) (operators : List Keyword) (values : List Term) (n : Nat) :
    List Term :=
  level D operators (values ++ textValues R values) n

variable {n : Nat}

theorem reached_mono {m : Nat} (h : m ≤ n) :
    ∀ v ∈ reached D R operators vs m, v ∈ reached D R operators vs n :=
  level_mono h

theorem mem_reached {v : Term} (h : v ∈ vs) (n : Nat) : v ∈ reached D R operators vs n :=
  reached_mono (Nat.zero_le n) v (mem_append_left _ h)

include hfi hco

theorem string_of_reached {s : String} (h : .atom (.string s) ∈ reached D R operators vs n) :
    .atom (.string s) ∈ vs := by
  rcases List.mem_append.mp (string_of_level h) with hold | htext
  · exact hold
  · obtain ⟨r, -, nd, hn, fd, hf, row, hrow, hv⟩ := mem_textValues.mp htext
    rcases hfi _ _ _ hf row hrow _ hv with hmem | ⟨s', hs', heq | hno⟩
    · exact hco _ hmem
    · cases hs'
      rw [heq]
      exact hn
    · exact absurd rfl (hno s)

/-- A row of a text search over reached values holds reached values. -/
theorem oneOf_text {r : String} (ht : r ∈ textRelations) {nd : Option Term}
    (hn : ∀ v, nd = some v → OneOf (reached D R operators vs n) v) {fd : List Tuple}
    (hf : R.text r nd = .ok fd) {t : Tuple} (htup : HasTuple fd t) :
    ∀ v ∈ t, OneOf (reached D R operators vs n) v := by
  intro v hv
  obtain ⟨row, hrow, hal⟩ := htup
  obtain ⟨i, hi⟩ := getElem?_of_mem hv
  obtain ⟨w, hw, hvw⟩ := hal.symm.getElem? hi
  have hmem : w ∈ row := mem_of_getElem? hw
  refine OneOf.congr ?_ hvw.symm
  rcases hfi _ _ _ hf row hrow w hmem with hin | ⟨s, rfl, -⟩
  · exact .of_mem (mem_reached (hco w hin) n)
  · have hs := string_of_reached hfi hco (hn _ rfl).string
    refine .of_mem (reached_mono (Nat.zero_le n) w (mem_append_right _ ?_))
    exact mem_textValues.mpr ⟨r, ht, _, hs, fd, hf, row, hrow, hmem⟩

/-! ### Bodies over values -/

/-- The constants and the operators of a literal are among the given ones. -/
def Literal.Within (literal : Literal) (operators : List Keyword) (values : List Term) : Prop :=
  literal.operator ∈ operators ∧
    ∀ argument ∈ literal.arguments, ∀ v, argument.value = some v → v ∈ values

/-- How many builtins a body has. -/
def builtins (body : List Literal) : Nat :=
  (body.filter fun literal => literal.kind == .builtin).length

variable {I : Facts}

include hD

theorem LiteralStep.over {literal : Literal} {σ σ' : Substitution}
    (h : LiteralStep D R I literal σ σ') (hwithin : literal.Within operators vs)
    (hfacts : literal.positive = true → ∀ tuple, (literal.relation, tuple) ∈ I →
      ∀ v ∈ tuple, OneOf (reached D R operators vs n) v)
    (hσ : Over (reached D R operators vs n) σ) :
    Over (reached D R operators vs (n + builtins [literal])) σ' := by
  have hval : ∀ argument ∈ literal.arguments, ∀ v, termValue argument σ = some v →
      OneOf (reached D R operators vs n) v :=
    fun argument harg v => hσ.termValue fun w hw => mem_reached (hwithin.2 argument harg w hw) n
  have hnone : ∀ {kind : LiteralKind}, literal.kind = kind → kind ≠ .builtin →
      builtins [literal] = 0 := by
    intro kind hkind hne
    unfold builtins
    rw [filter_cons_of_neg (by simp [hkind, hne])]
    rfl
  cases h with
  | relation hkind hneg hpl hfact hmat =>
    rw [hnone hkind (by simp)]
    exact .unifyAll hmat.2 hσ (hfacts (by simp [Literal.positive, hkind, hneg]) _ hfact)
  | text hkind hneg htext hneed hrows hrow hmat =>
    rw [hnone hkind (by simp)]
    exact .unifyAll hmat.2 hσ (oneOf_text hfi hco htext
      (fun v hv => hval _ (mem_of_getElem? hneed) v hv) hrows hrow)
  | negated hkind | comparison hkind =>
    rw [hnone hkind (by simp)]
    exact hσ
  | builtin hkind hfst hsnd hl hr hres =>
    have hone : builtins [literal] = 1 := by
      unfold builtins
      rw [filter_cons_of_pos (by simp [hkind])]
      rfl
    rw [hone]
    refine (hσ.mono (reached_mono (Nat.le_succ n))).bind _ ?_
    exact oneOf_builtin hD hwithin.1 (hval _ (mem_of_getElem? hfst) _ hl)
      (hval _ (mem_of_getElem? hsnd) _ hr) hres

theorem BodyStep.over : ∀ {body : List Literal} {position : Nat} {σ σ' : Substitution}
    {n : Nat}, BodyStep D R (fun _ => I) position body σ σ' →
      (∀ literal ∈ body, literal.Within operators vs) →
      (∀ literal ∈ body, literal.positive = true → ∀ tuple, (literal.relation, tuple) ∈ I →
        ∀ v ∈ tuple, OneOf (reached D R operators vs n) v) →
      Over (reached D R operators vs n) σ →
      Over (reached D R operators vs (n + builtins body)) σ' := by
  intro body
  induction body with
  | nil =>
    intro position σ σ' n h _ _ hσ
    cases h
    exact hσ
  | cons literal rest ih =>
    intro position σ σ' n h hwithin hfacts hσ
    cases h with
    | cons hhead hrest =>
      have hnext := hhead.over hD hfi hco (hwithin literal (by simp)) (hfacts literal (by simp)) hσ
      have hall := ih hrest (fun other ho => hwithin other (by simp [ho]))
        (fun other ho hpos tuple hfact v hv =>
          (hfacts other (by simp [ho]) hpos tuple hfact v hv).mono
            (reached_mono (Nat.le_add_right _ _))) hnext
      have hsum : n + builtins (literal :: rest) = n + builtins [literal] + builtins rest := by
        unfold builtins
        rw [show literal :: rest = [literal] ++ rest from rfl, filter_append, length_append]
        omega
      rw [hsum]
      exact hall

end

/-! ### The least model -/

/-- A rank that does not rise from a head to what it reads, and falls where the rule has a
builtin. -/
structure Ranked (rules : List Rule) (rank : String → Nat) : Prop where
  le : ∀ rule ∈ rules, ∀ literal ∈ rule.body, literal.positive = true →
    rank literal.relation ≤ rank rule.headRelation
  lt : ∀ rule ∈ rules, recursiveBuiltin rule = true → ∀ literal ∈ rule.body,
    literal.positive = true → rank literal.relation < rank rule.headRelation
  pos : ∀ rule ∈ rules, recursiveBuiltin rule = true → 0 < rank rule.headRelation

/-- The tuples of a length over values. -/
def tuplesOver (values : List Term) : Nat → List Tuple
  | 0 => [[]]
  | n + 1 => values.flatMap fun v => (tuplesOver values n).map (v :: ·)

theorem hasTuple_tuplesOver {vs : List Term} : ∀ {tuple : Tuple},
    (∀ v ∈ tuple, OneOf vs v) → HasTuple (tuplesOver vs tuple.length) tuple := by
  intro tuple
  induction tuple with
  | nil => exact fun _ => ⟨[], by simp [tuplesOver], .nil⟩
  | cons v tuple ih =>
    intro h
    obtain ⟨w, hw, hal⟩ := h v (by simp)
    obtain ⟨os, hos, hr⟩ := ih fun u hu => h u (by simp [hu])
    refine ⟨w :: os, ?_, .cons hal hr⟩
    exact mem_flatMap.mpr ⟨w, hw, mem_map.mpr ⟨os, hos, rfl⟩⟩

theorem exists_bound {α : Type} (f : α → Nat) (xs : List α) : ∃ bound, ∀ x ∈ xs, f x ≤ bound := by
  induction xs with
  | nil => exact ⟨0, by simp⟩
  | cons x xs ih =>
    obtain ⟨bound, hb⟩ := ih
    refine ⟨max (f x) bound, fun y hy => ?_⟩
    rcases mem_cons.mp hy with rfl | hy
    · exact Nat.le_max_left _ _
    · exact (hb y hy).trans (Nat.le_max_right _ _)

/-- The constants of the rules. -/
def constants (rules : List Rule) : List Term :=
  rules.flatMap fun rule =>
    (rule.headArguments ++ rule.body.flatMap (·.arguments)).filterMap (·.value)

variable {rule : Rule}

theorem mem_constants {rules : List Rule} (hr : rule ∈ rules) {t : QueryTerm}
    (ht : t ∈ rule.headArguments ∨ ∃ l ∈ rule.body, t ∈ l.arguments)
    (hv : t.value = some v) : v ∈ constants rules := by
  refine mem_flatMap.mpr ⟨rule, hr, mem_filterMap.mpr ⟨t, ?_, hv⟩⟩
  rcases ht with hh | ⟨l, hlit, harg⟩
  · exact mem_append_left _ hh
  · exact mem_append_right _ (mem_flatMap.mpr ⟨l, hlit, harg⟩)

theorem builtins_eq_zero (h : recursiveBuiltin rule = false) : builtins rule.body = 0 := by
  unfold recursiveBuiltin at h
  unfold builtins
  rw [filter_eq_nil_iff.mpr fun l hlit => by
    have := any_eq_false.mp h l hlit
    simpa using this]
  rfl

/-- **Each relation of a least model over finite facts has finitely many tuples.** -/
theorem finite_leastModel {D : Doubles} (hD : D.Lawful) {R : Reading} {cs : List Term}
    (hfi : R.Finite cs) {rs : List Rule} {rk : String → Nat}
    (hra : Ranked rs rk) (ns : List String) (tuples : String → List Tuple)
    (hnam : ∀ rule ∈ rs, rule.headRelation ∈ ns ∧ ∀ l ∈ rule.body,
      l.positive = true → l.relation ∈ ns) {b : Facts}
    (hba : ∀ r ∈ ns, ∀ t, (r, t) ∈ b → HasTuple (tuples r) t)
    {r : String} (hrel : r ∈ ns) :
    ∃ fd : List Tuple, ∀ t, (r, t) ∈ leastModel D R rs b → HasTuple fd t := by
  obtain ⟨wi, hwd⟩ := exists_bound (fun rule : Rule => builtins rule.body) rs
  obtain ⟨hs, hhe⟩ := exists_bound (fun rule : Rule => rule.headArguments.length) rs
  obtain ⟨longest, hl⟩ := exists_bound List.length (ns.flatMap tuples)
  let vs := cs ++ constants rs ++ (ns.flatMap tuples).flatten
  let operators := rs.flatMap fun rule => rule.body.map (·.operator)
  have hco : ∀ v ∈ cs, v ∈ vs := fun v hv => by simp [vs, hv]
  have hc : ∀ v ∈ constants rs, v ∈ vs := fun v hv => by simp [vs, hv]
  -- the tuples of bounded length whose values lie at the level of their relation
  let M : Facts := {fact | fact.1 ∈ ns → fact.2.length ≤ max hs longest ∧
    ∀ v ∈ fact.2, OneOf (reached D R operators vs (wi * rk fact.1)) v}
  have hbm : b ⊆ M := by
    rintro ⟨nm, t⟩ hf hna
    obtain ⟨u, hu, hal⟩ := hba nm hna t hf
    have hum : u ∈ ns.flatMap tuples := mem_flatMap.mpr ⟨nm, hna, hu⟩
    refine ⟨?_, fun v hv => ?_⟩
    · rw [← hal.length_eq]
      exact (hl u hum).trans (Nat.le_max_right _ _)
    · obtain ⟨i, hi⟩ := getElem?_of_mem hv
      obtain ⟨w, hw, hvw⟩ := hal.symm.getElem? hi
      have hmem : w ∈ vs := by
        simp only [vs, List.mem_append, mem_flatten]
        exact Or.inr ⟨u, hum, mem_of_getElem? hw⟩
      exact ⟨w, mem_reached hmem _, hvw.symm⟩
  have hcl : consequences D R rs M ⊆ M := by
    rintro ⟨nm, t⟩ ⟨rule, hr, hh, σ, h', hbod, hgr, hal⟩ hna
    dsimp only at hh hna ⊢
    subst hh
    have hwi : ∀ l ∈ rule.body, l.Within operators vs := by
      intro l hlit
      refine ⟨mem_flatMap.mpr ⟨rule, hr, mem_map.mpr ⟨l, hlit, rfl⟩⟩, ?_⟩
      intro a harg v hv
      exact hc v (mem_constants hr (Or.inr ⟨l, hlit, harg⟩) hv)
    -- what the body reads lies low enough for its builtins
    have hle : ∃ n, n + builtins rule.body ≤ wi * rk rule.headRelation ∧
        ∀ l ∈ rule.body, l.positive = true → wi * rk l.relation ≤ n := by
      cases hb : recursiveBuiltin rule with
      | false =>
        refine ⟨wi * rk rule.headRelation, ?_, fun l hlit hp => ?_⟩
        · rw [builtins_eq_zero hb]
          omega
        · exact Nat.mul_le_mul_left _ (hra.le rule hr l hlit hp)
      | true =>
        have hpos := hra.pos rule hr hb
        obtain ⟨lo, hlo⟩ := Nat.exists_eq_add_of_lt hpos
        refine ⟨wi * lo, ?_, fun l hlit hp => ?_⟩
        · have hw := hwd rule hr
          rw [hlo, show 0 + lo + 1 = lo + 1 by omega, Nat.mul_succ]
          omega
        · have := hra.lt rule hr hb l hlit hp
          exact Nat.mul_le_mul_left _ (by omega)
    obtain ⟨n, hn, hre⟩ := hle
    have ho := hbod.over hD hfi hco (n := n) hwi (fun l hlit hp tp hf v hv =>
        ((hf ((hnam rule hr).2 l hlit hp)).2 v hv).mono (reached_mono (hre l hlit hp)))
      (fun nm v hv => by simp [Substitution.value, Likeness.get] at hv)
    refine ⟨?_, fun v hv => ?_⟩
    · rw [← hal.length_eq, length_groundValue hgr]
      exact (hhe rule hr).trans (Nat.le_max_left _ _)
    · obtain ⟨i, hi⟩ := getElem?_of_mem hv
      obtain ⟨w, hw, hvw⟩ := hal.symm.getElem? hi
      have hone := ho.groundValue (fun a harg u hu =>
        mem_reached (hc u (mem_constants hr (Or.inl harg) hu)) _) hgr w
        (mem_of_getElem? hw)
      exact (hone.mono (reached_mono hn)).congr hvw.symm
  refine ⟨(List.range (max hs longest + 1)).flatMap
    (tuplesOver (reached D R operators vs (wi * rk r))), fun t ht => ?_⟩
  obtain ⟨hbo, hva⟩ := SemiNaive.least_subset hbm hcl ht hrel
  have hlen : t.length ≤ max hs longest := hbo
  obtain ⟨u, hu, hal⟩ := hasTuple_tuplesOver hva
  exact ⟨u, mem_flatMap.mpr ⟨t.length, List.mem_range.mpr (by omega), hu⟩, hal⟩

end Beagle.Query
