/-
Evaluation finds what the rules mean.

The substitutions a literal answers with are those it lets through, up to alike
values; a body answers with those its literals let through one after another.  It is
stated for any way of reading relations, so that the plain, the indexed and the
pinned evaluation are instances, and for any set of stops the reads may end with.
-/
import Beagle.Proofs.Probing
import Beagle.Query.Plan

namespace Beagle.Query

open Beagle.Lib Beagle.Store List

/-- The list holds substitutions of the kind only, and one alike to each of them. -/
def Represents (P : Substitution → Prop) (found : List Substitution) : Prop :=
  (∀ σ ∈ found, P σ) ∧ ∀ σ, P σ → ∃ τ ∈ found, AlikeSubst σ τ

variable {P Q : Substitution → Prop} {fd : List Substitution}

theorem Represents.congr (h : Represents P fd) (hPQ : ∀ σ, P σ ↔ Q σ) : Represents Q fd :=
  ⟨fun σ hσ => (hPQ σ).mp (h.1 σ hσ), fun σ hσ => h.2 σ ((hPQ σ).mpr hσ)⟩

theorem represents_nil (h : ∀ σ, ¬P σ) : Represents P [] :=
  ⟨by simp, fun σ hσ => absurd hσ (h σ)⟩

theorem represents_singleton {σ : Substitution} (h : P σ) (ho : ∀ τ, P τ → τ = σ) :
    Represents P [σ] := by
  refine ⟨by simpa using h, ?_⟩
  intro τ hτ
  exact ⟨σ, by simp, by rw [ho τ hτ]; exact AlikeSubst.refl σ⟩

theorem represents_append {os : List Substitution} (hP : Represents P fd)
    (hQ : Represents Q os) : Represents (fun σ => P σ ∨ Q σ) (fd ++ os) := by
  refine ⟨?_, ?_⟩
  · intro σ hσ
    rcases List.mem_append.mp hσ with h | h
    · exact Or.inl (hP.1 σ h)
    · exact Or.inr (hQ.1 σ h)
  · rintro σ (h | h)
    · obtain ⟨τ, hτ, hal⟩ := hP.2 σ h
      exact ⟨τ, by simp [hτ], hal⟩
    · obtain ⟨τ, hτ, hal⟩ := hQ.2 σ h
      exact ⟨τ, by simp [hτ], hal⟩

section

variable {al : Stop → Prop} {α : Type}

theorem collect_ends {P : α → Substitution → Prop} {f : α → Eval (List Substitution)} {as : List α}
    (h : ∀ a ∈ as, Ends al (Represents (P a)) (f a)) :
    Ends al (Represents fun σ => ∃ a ∈ as, P a σ) (collect f as) := by
  induction as with
  | nil => exact Ends.pure (represents_nil (by simp))
  | cons a as ih =>
    refine Ends.bind (h a (by simp)) fun fd hf => ?_
    refine Ends.bind (ih fun b hb => h b (by simp [hb])) fun os hos => ?_
    refine Ends.pure ((represents_append hf hos).congr fun σ => ?_)
    simp

/-! ### Reads -/

/-- The control's own errors are allowed. -/
def AllowsChecks (control : Option QueryControl) (allowed : Stop → Prop) : Prop :=
  ∀ c, control = some c → ∀ steps error, checkError c steps = some error → allowed (.error error)

theorem allowsChecks_none (al : Stop → Prop) : AllowsChecks none al := by
  intro c hc
  simp at hc

variable {co : Option QueryControl}

theorem queryCheck_ends (hche : AllowsChecks co al) : Ends al (fun _ => True) (queryCheck co) := by
  intro ss
  cases co with
  | none => exact True.intro
  | some c =>
    unfold queryCheck
    dsimp only
    cases herr : checkError c (ss + 1) with
    | none => exact True.intro
    | some e => exact hche c rfl _ _ herr

theorem nth_ends {vs : List α} {p : Nat} {value : α} (h : vs[p]? = some value)
    : nth vs p = pure value := by
  unfold nth
  rw [h]

theorem unifyArguments_ends (hche : AllowsChecks co al) (arguments : List QueryTerm)
    (σ : Substitution) (t : Tuple) :
    Ends al (Represents (Matches arguments t σ)) (unifyArguments co arguments σ t) := by
  refine Ends.bind (queryCheck_ends hche) fun _ _ => ?_
  by_cases hl : arguments.length = t.length
  · rw [if_pos hl]
    refine Ends.pure ?_
    cases huni : unifyAll σ arguments t with
    | none =>
      refine represents_nil ?_
      intro τ hτ
      rw [hτ.2] at huni
      simp at huni
    | some σ' =>
      refine represents_singleton ⟨hl, huni⟩ ?_
      intro τ hτ
      rw [hτ.2] at huni
      exact Option.some.inj huni
  · rw [if_neg hl]
    exact Ends.pure (represents_nil fun τ hτ => hl hτ.1)

theorem unifyTuples_ends (hche : AllowsChecks co al) (arguments : List QueryTerm)
    (ts : List Tuple) (σ : Substitution) :
    Ends al (Represents fun σ' => ∃ t ∈ ts, Matches arguments t σ σ')
      (unifyTuples co arguments ts σ) :=
  collect_ends fun t _ => unifyArguments_ends hche arguments σ t

/-- What matches a tuple that the list has matches one of the list, up to likeness. -/
theorem represents_of_hasTuple {arguments : List QueryTerm} {σ : Substitution}
    {ts : List Tuple} {fd : List Substitution} {P : Tuple → Prop}
    (h : Represents (fun σ' => ∃ tp ∈ ts, Matches arguments tp σ σ') fd)
    (hs : ∀ tp ∈ ts, P tp)
    (hc : ∀ tp, P tp → Fits arguments σ tp → HasTuple ts tp) :
    Represents (fun σ' => ∃ tp, P tp ∧ Matches arguments tp σ σ') fd := by
  refine ⟨?_, ?_⟩
  · intro σ' hσ'
    obtain ⟨tp, htup, hmat⟩ := h.1 σ' hσ'
    exact ⟨tp, hs tp htup, hmat⟩
  · rintro σ' ⟨tp, hhd, hmat⟩
    obtain ⟨t, ht, hal⟩ := hc tp hhd hmat.fits
    obtain ⟨σ'', hmat', hσ''⟩ := hmat.alike hal.symm (AlikeSubst.refl σ)
    obtain ⟨τ, hτ, hτ'⟩ := h.2 σ'' ⟨t, ht, hmat'⟩
    exact ⟨τ, hτ, hσ''.trans hτ'⟩

end

/-! ### Literals -/

section

variable {D : Doubles} {R : Reading} {al : Stop → Prop} {co : Option QueryControl}

/-- The read of a relation literal gives what the literal lets through. -/
def Reads (D : Doubles) (R : Reading) (allowed : Stop → Prop) (I : Facts)
    (read : Literal → Substitution → Eval (List Substitution)) (literal : Literal)
    (σ : Substitution) : Prop :=
  Ends allowed (Represents (LiteralStep D R I literal σ)) (read literal σ)

/-- What a comparison lets through. -/
theorem literalStep_comparison_iff {I : Facts} {literal : Literal} {σ τ : Substitution}
    {first s : QueryTerm} (hki : literal.kind = .comparison)
    (hfst : literal.arguments[0]? = some first) (hsnd : literal.arguments[1]? = some s) :
    LiteralStep D R I literal σ τ ↔ τ = σ ∧
      ∃ l r, termValue first σ = some l ∧ termValue s σ = some r ∧
        comparisonValue D literal.operator l r = true := by
  constructor
  · intro h
    cases h <;> simp_all
  · rintro ⟨rfl, l, r, hl, hr, hhd⟩
    exact .comparison hki hfst hsnd hl hr hhd

/-- What a builtin lets through. -/
theorem literalStep_builtin_iff {I : Facts} {literal : Literal} {σ τ : Substitution}
    {first s : QueryTerm} (hki : literal.kind = .builtin)
    (hfst : literal.arguments[0]? = some first) (hsnd : literal.arguments[1]? = some s) :
    LiteralStep D R I literal σ τ ↔
      ∃ l r value, termValue first σ = some l ∧ termValue s σ = some r ∧
        builtinValue D literal.operator l r = .ok (some value) ∧
        τ = σ.bind literal.binding value := by
  constructor
  · intro h
    cases h <;> simp_all
  · rintro ⟨l, r, value, hl, hr, hval, rfl⟩
    exact .builtin hki hfst hsnd hl hr hval

theorem literalResults_ends (hche : AllowsChecks co al) {I : Facts}
    {rd : Literal → Substitution → Eval (List Substitution)} {literal : Literal}
    {σ : Substitution} (hre : literal.kind = .relation → Reads D R al I rd literal σ)
    (htwo : literal.kind = .comparison ∨ literal.kind = .builtin → literal.arguments.length = 2)
    (hs : ∀ s, LiteralStops D R literal σ s → al s) :
    Ends al (Represents (LiteralStep D R I literal σ)) (literalResults D co rd literal σ) := by
  refine Ends.bind (queryCheck_ends hche) fun _ _ => ?_
  have hnone (hno : ∀ τ, ¬LiteralStep D R I literal σ τ) :
      Ends al (Represents (LiteralStep D R I literal σ)) (pure [] : Eval (List Substitution)) :=
    Ends.pure (represents_nil hno)
  cases hki : literal.kind with
  | relation => exact hre hki
  | other kind =>
    refine hnone fun τ h => ?_
    cases h <;> simp_all
  | comparison =>
    obtain ⟨first, second, ha⟩ := length_eq_two.mp (htwo (Or.inl hki))
    have hfst : literal.arguments[0]? = some first := by rw [ha]; rfl
    have hsnd : literal.arguments[1]? = some second := by rw [ha]; rfl
    have hiff := fun τ => @literalStep_comparison_iff D R I literal σ τ _ _ hki hfst hsnd
    dsimp only
    unfold comparisonResult
    rw [nth_ends hfst, pure_bind, nth_ends hsnd, pure_bind]
    cases hl : termValue first σ with
    | none => exact hnone fun τ h => by simp [hiff, hl] at h
    | some l =>
      cases hr : termValue second σ with
      | none => exact hnone fun τ h => by simp [hiff, hr] at h
      | some r =>
        dsimp only
        rw [pure_bind]
        cases hhd : comparisonValue D literal.operator l r with
        | true =>
          rw [if_pos rfl]
          exact Ends.pure (represents_singleton ((hiff σ).mpr ⟨rfl, l, r, hl, hr,
            hhd⟩) fun τ h => ((hiff τ).mp h).1)
        | false => exact hnone fun τ h => by simp [hiff, hl, hr, hhd] at h
  | builtin =>
    obtain ⟨first, second, ha⟩ := length_eq_two.mp (htwo (Or.inr hki))
    have hfst : literal.arguments[0]? = some first := by rw [ha]; rfl
    have hsnd : literal.arguments[1]? = some second := by rw [ha]; rfl
    have hiff := fun τ => @literalStep_builtin_iff D R I literal σ τ _ _ hki hfst hsnd
    dsimp only
    unfold builtinResults
    rw [nth_ends hfst, pure_bind, nth_ends hsnd, pure_bind]
    cases hl : termValue first σ with
    | none => exact hnone fun τ h => by simp [hiff, hl] at h
    | some l =>
      cases hr : termValue second σ with
      | none => exact hnone fun τ h => by simp [hiff, hr] at h
      | some r =>
        dsimp only
        cases hval : builtinValue D literal.operator l r with
        | error s =>
          exact Ends.bind (P := fun _ => False) (Ends.halt
            (hs s (.builtin hki hfst hsnd hl hr hval)))
            fun _ h => h.elim
        | ok v =>
          show Ends al _ (pure v >>= fun v =>
            pure (v.map (σ.bind literal.binding)).toList)
          rw [pure_bind]
          cases v with
          | none => exact hnone fun τ h => by simp [hiff, hl, hr, hval] at h
          | some v =>
            refine Ends.pure (represents_singleton ((hiff _).mpr ⟨l, r, v, hl, hr,
              hval, rfl⟩) fun τ h => ?_)
            simpa [hiff, hl, hr, hval] using h

end

/-! ### Bound variables -/

/-- The substitution has a value for each of the names. -/
def Binds (σ : Substitution) (bound : List String) : Prop :=
  ∀ name ∈ bound, ∃ value, σ.value name = some value

/-- The term is a constant or one of the bound variables. -/
def BoundIn (bound : List String) (term : QueryTerm) : Prop :=
  match term.name with
  | some name => name ∈ bound
  | none => ∃ value, term.value = some value

variable {b : List String}

theorem BoundIn.termValue {t : QueryTerm} (h : BoundIn b t)
    {σ : Substitution} (hσ : Binds σ b) : ∃ value, termValue t σ = some value := by
  unfold BoundIn at h
  unfold Query.termValue
  cases hn : t.name with
  | none =>
    rw [hn] at h
    exact h
  | some n =>
    rw [hn] at h
    exact hσ n h

theorem groundValue_of_bound {arguments : List QueryTerm}
    (h : ∀ a ∈ arguments, BoundIn b a) {σ : Substitution} (hσ : Binds σ b) :
    ∃ tuple, groundValue σ arguments = some tuple := by
  induction arguments with
  | nil => exact ⟨[], rfl⟩
  | cons a r ih =>
    obtain ⟨v, hval⟩ := (h a (by simp)).termValue hσ
    obtain ⟨vs, hv⟩ := ih fun o ho => h o (by simp [ho])
    refine ⟨v :: vs, ?_⟩
    unfold groundValue
    rw [hval, hv]

theorem unify_binds {a : QueryTerm} {v : Term} {σ σ' : Substitution}
    (h : unify a v σ = some σ') {n : String} (hn : a.name = some n) :
    ∃ value, σ'.value n = some value := by
  unfold unify at h
  rw [hn] at h
  dsimp only at h
  cases hval : σ.value n with
  | some b =>
    rw [hval] at h
    dsimp only at h
    split at h
    · cases h
      exact ⟨b, hval⟩
    · simp at h
  | none =>
    rw [hval] at h
    cases h
    exact ⟨v, by rw [Substitution.value_bind, if_pos rfl]⟩

theorem unifyAll_keeps : ∀ {arguments : List QueryTerm} {t : Tuple} {σ σ' : Substitution},
    unifyAll σ arguments t = some σ' → ∀ {n : String} {w : Term},
      σ.value n = some w → σ'.value n = some w := by
  intro arguments
  induction arguments with
  | nil =>
    intro t σ σ' h n w hw
    cases h
    exact hw
  | cons a r ih =>
    intro t σ σ' h n w hw
    cases t with
    | nil =>
      cases h
      exact hw
    | cons v vs =>
      unfold unifyAll at h
      cases hfst : unify a v σ with
      | none =>
        rw [hfst] at h
        simp at h
      | some next =>
        rw [hfst] at h
        exact ih h (unify_keeps hfst hw)

theorem unifyAll_binds : ∀ {arguments : List QueryTerm} {t : Tuple} {σ σ' : Substitution},
    arguments.length = t.length → unifyAll σ arguments t = some σ' →
      Binds σ' (termVars arguments) := by
  intro arguments
  induction arguments with
  | nil => intro t σ σ' _ _ name hname; simp [termVars] at hname
  | cons a r ih =>
    intro t σ σ' hl h name hname
    cases t with
    | nil => simp at hl
    | cons v vs =>
      unfold unifyAll at h
      cases hfst : unify a v σ with
      | none =>
        rw [hfst] at h
        simp at h
      | some next =>
        rw [hfst] at h
        obtain ⟨tm, hterm, hvar⟩ := mem_filterMap.mp hname
        rcases mem_cons.mp hterm with rfl | hterm
        · obtain ⟨w, hw⟩ := unify_binds hfst hvar
          exact ⟨w, unifyAll_keeps h hw⟩
        · exact ih (by simpa using hl) h name (mem_filterMap.mpr ⟨tm, hterm, hvar⟩)

section

variable {D : Doubles} {R : Reading} {σ' : Substitution}

theorem LiteralStep.binds {I : Facts} {literal : Literal} {σ : Substitution}
    (h : LiteralStep D R I literal σ σ') {b : List String} (hσ : Binds σ b) :
    Binds σ' (b ++ literalBindings literal) := by
  have hm : ∀ {t : Tuple}, literal.kind = .relation → literal.negated = false →
      Matches literal.arguments t σ σ' → Binds σ' (b ++ literalBindings literal) := by
    intro t hki hneg hmat n hn
    rcases List.mem_append.mp hn with hold | hnew
    · obtain ⟨v, hval⟩ := hσ n hold
      exact ⟨v, unifyAll_keeps hmat.2 hval⟩
    · unfold literalBindings at hnew
      rw [hki, hneg] at hnew
      exact unifyAll_binds hmat.1 hmat.2 n hnew
  have hk : literalBindings literal = [] → Binds σ (b ++ literalBindings literal) := by
    intro hno
    rw [hno, append_nil]
    exact hσ
  cases h with
  | relation hki hneg _ _ hmat | text hki hneg _ _ _ _ hmat => exact hm hki hneg hmat
  | negated hki hneg _ _ =>
    refine hk ?_
    unfold literalBindings
    rw [hki, hneg]
    rfl
  | comparison hki _ _ _ _ _ =>
    refine hk ?_
    unfold literalBindings
    rw [hki]
  | builtin hki _ _ _ _ _ =>
    intro n hn
    rw [Substitution.value_bind]
    by_cases heq : literal.binding = n
    · rw [if_pos heq]
      exact ⟨_, rfl⟩
    · rw [if_neg heq]
      rcases List.mem_append.mp hn with hold | hnew
      · exact hσ n hold
      · unfold literalBindings at hnew
        rw [hki] at hnew
        have hn' : n = literal.binding := by simpa using hnew
        exact absurd hn'.symm heq

theorem BodyStep.binds {fs : Nat → Facts} {p : Nat} {bo : List Literal}
    {σ : Substitution} (h : BodyStep D R fs p bo σ σ') {b : List String}
    (hσ : Binds σ b) : Binds σ' (b ++ bodyBindings bo) := by
  induction h generalizing b with
  | nil σ =>
    rw [bodyBindings, flatMap_nil, append_nil]
    exact hσ
  | cons hh _ ih =>
    have := ih (hh.binds hσ)
    rw [append_assoc] at this
    exact this

end

/-! ### Bodies -/

/-- The literal can be evaluated once these variables are bound. -/
def LiteralSafe (arity : String → Option Nat) (bound : List String) (literal : Literal) : Prop :=
  match literal.kind with
  | .relation => arity literal.relation = some literal.arguments.length ∧
      (literal.negated = true → literal.relation ∉ textRelations ∧
        ∀ argument ∈ literal.arguments, BoundIn bound argument)
  | .comparison => literal.arguments.length = 2
  | .builtin => literal.arguments.length = 2
  | .other _ => False

/-- Every literal of the body can be evaluated when its turn comes. -/
def BodySafe (arity : String → Option Nat) : List String → List Literal → Prop
  | _, [] => True
  | bound, literal :: rest =>
    LiteralSafe arity bound literal ∧ BodySafe arity (bound ++ literalBindings literal) rest

/-- The body can be evaluated, and it binds the variables of the head. -/
structure RuleSafe (arity : String → Option Nat) (rule : Rule) : Prop where
  body : BodySafe arity [] rule.body
  head : ∀ argument ∈ rule.headArguments, BoundIn (bodyBindings rule.body) argument

section

variable {D : Doubles} {R : Reading} (hD : D.Lawful) (hR : R.Lawful) {al : Stop → Prop}
  {co : Option QueryControl} (hche : AllowsChecks co al)
include hD hR hche

theorem bodyResultsFrom_ends {a : String → Option Nat} {fs : Nat → Facts}
    {rd : Nat → Literal → Substitution → Eval (List Substitution)} :
    ∀ (bo : List Literal) (p : Nat) (b : List String) (ss : List Substitution), BodySafe a b bo →
      (∀ (k : Nat) (literal : Literal), bo[k]? = some literal → literal.kind = .relation →
        ∀ (b : List String) (σ : Substitution), LiteralSafe a b literal →
          Binds σ b → (∀ stop, LiteralStops D R literal σ stop → al stop) →
            Reads D R al (fs (p + k)) (rd (p + k)) literal σ) →
      (∀ σ ∈ ss, Binds σ b) →
      (∀ σ ∈ ss, ∀ stop, BodyStops D R fs p bo σ stop → al stop) →
      Ends al (Represents fun σ' => ∃ σ ∈ ss, BodyStep D R fs p bo σ σ')
        (bodyResultsFrom D co rd p bo ss) := by
  intro bo
  induction bo with
  | nil =>
    intro p b ss _ _ _ _
    refine Ends.pure ⟨fun σ hσ => ⟨σ, hσ, .nil σ⟩, ?_⟩
    rintro σ' ⟨σ, hσ, hs⟩
    cases hs
    exact ⟨_, hσ, AlikeSubst.refl _⟩
  | cons literal r ih =>
    intro p b ss hsa hre hb hsto
    have htwo : literal.kind = .comparison ∨ literal.kind = .builtin →
        literal.arguments.length = 2 := by
      intro hki
      have hlit := hsa.1
      unfold LiteralSafe at hlit
      rcases hki with hki | hki <;> rw [hki] at hlit <;> exact hlit
    have hh : ∀ σ ∈ ss, Ends al (Represents (LiteralStep D R (fs p) literal σ))
        (literalResults D co (rd p) literal σ) := by
      intro σ hσ
      have hst : ∀ stop, LiteralStops D R literal σ stop → al stop :=
        fun stop h => hsto σ hσ stop (.here h)
      exact literalResults_ends hche
        (fun hki => hre 0 literal rfl hki b σ hsa.1 (hb σ hσ) hst) htwo hst
    refine Ends.bind (collect_ends hh) fun next hn => ?_
    have hs : ∀ τ ∈ next, ∃ σ ∈ ss, LiteralStep D R (fs p) literal σ τ :=
      hn.1
    refine Ends.mono (ih (p + 1) (b ++ literalBindings literal) next hsa.2 ?_ ?_ ?_) ?_
    · intro k o hget hki b' σ hsafe' hσ hst
      have hr' := hre (k + 1) o (by simpa using hget) hki b' σ hsafe' hσ hst
      rw [show p + 1 + k = p + (k + 1) by omega]
      exact hr'
    · intro τ hτ
      obtain ⟨σ, hσ, h⟩ := hs τ hτ
      exact h.binds (hb σ hσ)
    · intro τ hτ stop h
      obtain ⟨σ, hσ, hlit⟩ := hs τ hτ
      exact hsto σ hσ stop (.later hlit h)
    · intro fd hf
      refine ⟨?_, ?_⟩
      · intro σ' hσ'
        obtain ⟨τ, hτ, hr⟩ := hf.1 σ' hσ'
        obtain ⟨σ, hσ, h⟩ := hs τ hτ
        exact ⟨σ, hσ, .cons h hr⟩
      · rintro σ' ⟨σ, hσ, hbo⟩
        cases hbo with
        | cons hlit hr =>
          obtain ⟨τ, hτ, hal⟩ := hn.2 _ ⟨σ, hσ, hlit⟩
          obtain ⟨τ', hre', hal'⟩ := hr.alike hD hR hal
          obtain ⟨υ, hυ, hυ'⟩ := hf.2 τ' ⟨τ, hτ, hre'⟩
          exact ⟨υ, hυ, hal'.trans hυ'⟩

end

/-! ### Relations -/

/-- A negated literal has arguments, and what is absent from its relation is what the facts
do not have there. -/
def AbsentReads (R : Reading) (I : Facts) (literal : Literal) : Prop :=
  literal.arguments ≠ [] ∧ ∃ base : List Tuple, (∀ t, HasTuple base t ↔ (literal.relation, t) ∈ I) ∧
      ∀ t, t.length = literal.arguments.length → R.absent literal.relation t = !tupleLike.mem base t

/-- The sources answer for the relation: a text search for a text relation, and a source that
presents the facts, or the database itself, for any other. -/
structure SourcesFor (R : Reading) (arity : String → Option Nat) (I : Facts) (db : Db)
    (sources : CandidateSources) (relation : String) : Prop where
  text : relation ∈ textRelations → ∃ source,
    sources.find relation = some (.virtual relation source) ∧
      ∀ needle, R.text relation needle = source.rows relation true needle
  plain : relation ∉ textRelations → ∀ n, arity relation = some n →
    ∃ tuples, (∀ t, HasTuple tuples t ↔ (relation, t) ∈ I) ∧
      ((∃ source, sources.find relation = some (.candidate source) ∧
        Presents relation n source tuples) ∨
      sources.find relation = none ∧ tuples = db.tuples relation)

/-- Text relations have room for a needle. -/
def TextArity (arity : String → Option Nat) : Prop :=
  ∀ relation ∈ textRelations, ∀ n, arity relation = some n → 3 ≤ n

section

variable {D : Doubles} {R : Reading} {al : Stop → Prop} {co : Option QueryControl}
  (hche : AllowsChecks co al) {a : String → Option Nat}
  (hta : TextArity a) {I : Facts} {literal : Literal} {σ : Substitution}
  (hki : literal.kind = .relation) (hl : a literal.relation = some literal.arguments.length)
include hche hta hki hl

omit hta hl in
/-- Unifying with tuples that stand for the rows of a text relation reads the relation. -/
theorem unifyRows_reads (hneg : literal.negated = false) (ht : literal.relation ∈ textRelations)
    {nd : QueryTerm} (hn : literal.arguments[2]? = some nd) {rs ts : List Tuple}
    (hr : R.text literal.relation (termValue nd σ) = .ok rs)
    (hs : ∀ t ∈ ts, HasTuple rs t)
    (hc : ∀ t, HasTuple rs t → Fits literal.arguments σ t → HasTuple ts t) :
    Ends al (Represents (LiteralStep D R I literal σ)) (unifyTuples co literal.arguments ts σ) := by
  refine Ends.mono (unifyTuples_ends hche literal.arguments ts σ) fun fd hf => ?_
  refine (represents_of_hasTuple (P := HasTuple rs) hf hs hc).congr fun σ' => ?_
  constructor
  · rintro ⟨tp, htup, hmat⟩
    exact .text hki hneg ht hn hr htup hmat
  · intro h
    cases h with
    | text _ _ _ hn' hr' htup hmat =>
      rw [hn] at hn'
      cases hn'
      rw [hr] at hr'
      cases hr'
      exact ⟨_, htup, hmat⟩
    | relation _ _ hpl => exact absurd ht hpl
    | negated _ hneg' => rw [hneg] at hneg'; simp at hneg'
    | comparison hk | builtin hk => rw [hki] at hk; simp at hk

/-- What a text relation answers is what the text step lets through. -/
theorem virtualSource_reads (hneg : literal.negated = false)
    (hte : literal.relation ∈ textRelations) (s : TextSearchSource) (i : Bool)
    (hr : ∀ needle, R.text literal.relation needle = s.rows literal.relation i needle)
    (hs : ∀ sp, LiteralStops D R literal σ sp → al sp) :
    Ends al (Represents (LiteralStep D R I literal σ))
      (virtualSourceRows literal.relation s i literal.arguments σ >>= fun rs =>
        unifyTuples co literal.arguments rs σ) := by
  have hth : 3 ≤ literal.arguments.length := hta _ hte _ hl
  obtain ⟨needle, hn⟩ : ∃ needle, literal.arguments[2]? = some needle :=
    ⟨_, getElem?_eq_getElem (by omega)⟩
  unfold virtualSourceRows virtualSourceRowsResult
  rw [nth_ends hn, pure_bind, if_pos hte, ← hr]
  cases hres : R.text literal.relation (termValue needle σ) with
  | error error =>
    exact Ends.bind (P := fun _ => False)
      (Ends.halt (hs _ (.text hki hneg hte hn hres))) fun _ h => h.elim
  | ok rs =>
    show Ends al _ (pure rs >>= fun rs => unifyTuples co literal.arguments rs σ)
    rw [pure_bind]
    exact unifyRows_reads hche hki hneg hte hn hres
      (fun t ht => HasTuple.of_mem ht) fun t ht _ => ht

omit hta hl in
/-- Unifying with tuples that stand for the facts of a relation reads the relation. -/
theorem unifyTuples_reads (hneg : literal.negated = false)
    (hpl : literal.relation ∉ textRelations) {ts : List Tuple}
    (hs : ∀ t ∈ ts, (literal.relation, t) ∈ I)
    (hc : ∀ t, (literal.relation, t) ∈ I → Fits literal.arguments σ t → HasTuple ts t) :
    Ends al (Represents (LiteralStep D R I literal σ)) (unifyTuples co literal.arguments ts σ) := by
  refine Ends.mono (unifyTuples_ends hche literal.arguments ts σ) fun fd hf => ?_
  refine (represents_of_hasTuple (P := fun t => (literal.relation, t) ∈ I) hf hs
    hc).congr fun σ' => ?_
  constructor
  · rintro ⟨tp, hfa, hmat⟩
    exact .relation hki hneg hpl hfa hmat
  · intro h
    cases h with
    | relation _ _ _ hfa hmat => exact ⟨_, hfa, hmat⟩
    | text _ _ ht => exact absurd ht hpl
    | negated _ hneg' => rw [hneg] at hneg'; simp at hneg'
    | comparison hk | builtin hk => rw [hki] at hk; simp at hk

omit hche hta hl in
/-- Deciding by absence reads a negated relation. -/
theorem negated_represents (hneg : literal.negated = true) {tuple : Tuple}
    (hgr : groundValue σ literal.arguments = some tuple) {present : Bool}
    (habs : R.absent literal.relation tuple = !present) :
    Represents (LiteralStep D R I literal σ) (if present then [] else [σ]) := by
  have honly : ∀ σ', LiteralStep D R I literal σ σ' →
      σ' = σ ∧ R.absent literal.relation tuple = true := by
    intro σ' h
    cases h with
    | negated _ _ hgr' habs' =>
      rw [hgr] at hgr'
      cases hgr'
      exact ⟨rfl, habs'⟩
    | relation _ hneg' | text _ hneg' => rw [hneg] at hneg'; simp at hneg'
    | comparison hk | builtin hk => rw [hki] at hk; simp at hk
  cases present with
  | true =>
    rw [if_pos rfl]
    refine represents_nil fun σ' h => ?_
    have := (honly σ' h).2
    rw [habs] at this
    simp at this
  | false =>
    rw [if_neg (by simp)]
    exact represents_singleton (.negated hki hneg hgr habs) fun σ' h => (honly σ' h).1

variable {db : Db} {ss : CandidateSources}

/-- **The indexed read of a relation gives what the literal lets through.** -/
theorem relationResultsIndexed_reads (hsr : SourcesFor R a I db ss literal.relation)
    {b : List String} (hs : LiteralSafe a b literal) (hbi : Binds σ b)
    (habs : literal.negated = true → AbsentReads R I literal)
    (hst : ∀ sp, LiteralStops D R literal σ sp → al sp) :
    Reads D R al I (relationResultsIndexed co db ss) literal σ := by
  unfold Reads relationResultsIndexed
  unfold LiteralSafe at hs
  rw [hki] at hs
  cases hneg : literal.negated with
  | true =>
    obtain ⟨hpl, hb⟩ := hs.2 hneg
    obtain ⟨hne, ba, hba, habs'⟩ := habs hneg
    obtain ⟨tuple, hgr⟩ := groundValue_of_bound hb hbi
    obtain ⟨ts, htu, hc⟩ := hsr.plain hpl _ hl
    have hmem : R.absent literal.relation tuple = !tupleLike.mem ts tuple := by
      rw [habs' _ (length_groundValue hgr), mem_eq_of_hasTuple_iff (fun t => (hba t).trans (htu t).symm)
        (AlikeTuple.refl tuple)]
    rw [if_pos rfl]
    rcases hc with ⟨s, hf, hp⟩ | ⟨hf, rfl⟩
    · rw [hf]
      dsimp only
      rw [hp.negative _ _ _ rfl hne hgr, pure_bind]
      exact Ends.pure (negated_represents hki hneg hgr hmem)
    · rw [hf]
      dsimp only
      rw [ground_eq hgr, pure_bind]
      exact Ends.pure (negated_represents hki hneg hgr hmem)
  | false =>
    rw [if_neg (by simp)]
    by_cases hte : literal.relation ∈ textRelations
    · obtain ⟨s, hf, hr⟩ := hsr.text hte
      rw [hf]
      exact virtualSource_reads hche hta hki hl hneg hte s true hr hst
    · obtain ⟨ts, htu, hc⟩ := hsr.plain hte _ hl
      rcases hc with ⟨s, hf, hp⟩ | ⟨hf, rfl⟩
      · obtain ⟨c, hch, hall, heq⟩ := hp.positive co literal.arguments σ rfl
        rw [hf]
        dsimp only
        rw [heq]
        refine unifyTuples_reads hche hki hneg hte
          (fun t ht => (htu t).mp (hch t ht)) fun t ht hfi => ?_
        obtain ⟨u, hu, hal⟩ := (htu t).mpr ht
        exact (hall u hu (hfi.alike hal.symm)).congr hal
      · rw [hf]
        dsimp only
        rw [if_neg hte]
        exact unifyTuples_reads hche hki hneg hte
          (fun t ht => (htu t).mp (HasTuple.of_mem ht)) fun t ht _ => (htu t).mpr ht

/-- **The plain read of a relation gives what the literal lets through.** -/
theorem relationResults_reads (hdb : literal.relation ∉ textRelations →
      ∀ t, db.Has literal.relation t ↔ (literal.relation, t) ∈ I)
    (hte : literal.relation ∈ textRelations → ∃ s,
      ss.find literal.relation = some (.virtual literal.relation s) ∧
        ∀ nd, R.text literal.relation nd = s.rows literal.relation false nd)
    (hv : literal.relation ∉ textRelations → ∀ relation s,
      ss.find literal.relation ≠ some (.virtual relation s)) {b : List String}
    (hs : LiteralSafe a b literal) (hbi : Binds σ b)
    (habs : literal.negated = true → AbsentReads R I literal)
    (hst : ∀ sp, LiteralStops D R literal σ sp → al sp) :
    Reads D R al I (relationResults co db ss) literal σ := by
  unfold Reads relationResults
  unfold LiteralSafe at hs
  rw [hki] at hs
  cases hneg : literal.negated with
  | true =>
    obtain ⟨hpl, hb⟩ := hs.2 hneg
    obtain ⟨-, ba, hba, habs'⟩ := habs hneg
    obtain ⟨tuple, hgr⟩ := groundValue_of_bound hb hbi
    have hmem : R.absent literal.relation tuple = !db.contains literal.relation tuple := by
      unfold Db.contains
      rw [habs' _ (length_groundValue hgr), mem_eq_of_hasTuple_iff (fun t => (hba t).trans (hdb hpl t).symm)
        (AlikeTuple.refl tuple)]
    rw [if_pos rfl, ground_eq hgr, pure_bind]
    exact Ends.pure (negated_represents hki hneg hgr hmem)
  | false =>
    rw [if_neg (by simp)]
    by_cases hpl : literal.relation ∈ textRelations
    · obtain ⟨s, hf, hr⟩ := hte hpl
      rw [hf]
      exact virtualSource_reads hche hta hki hl hneg hpl s false hr hst
    · have hpr : Ends al (Represents (LiteralStep D R I literal σ))
          (unifyTuples co literal.arguments (db.tuples literal.relation) σ) :=
        unifyTuples_reads hche hki hneg hpl (fun t ht => (hdb hpl t).mp (HasTuple.of_mem ht))
          fun t ht _ => (hdb hpl t).mpr ht
      cases hf : ss.find literal.relation with
      | none =>
        dsimp only
        rw [if_neg hpl]
        exact hpr
      | some v =>
        cases v with
        | candidate s => exact hpr
        | virtual relation s => exact absurd hf (hv hpl relation s)

end

end Beagle.Query
