/-
What a run of the unifier makes of two types.

A run adds assignments, so what it reaches is read by one more substitution.  Where the
walk does not stray the two types are related in the way of their position, under every
further solution; where it strays they are not, under any, as long as no unions are
walked.  The step is one arm of the walk, and the runs follow by induction on the depth.

When unification is sound for assignability.

`unify-types!` walks the parameters of functions and the alternatives of `Dyn` in the
direction of the whole, while `type-compatible?` turns the parameters round and wants
the alternatives equal.  A run that does not stray over this is sound, and without
unions a run is sound exactly when it does not stray.
-/
import Beagle.Proofs.Positions
import Beagle.Proofs.Solving

namespace Beagle.Types

open List

section

variable {T : Tables} {g : Grammar}

/-! ### Further assignments -/

/-- A type under assignments and a further solution of what they leave open. -/
def Solutions.read (σ : Solutions) (θ : Nat → Ty) (t : Ty) : Ty := (σ.zonk t).subst θ

/-- `σ'` solves some of what `σ` leaves open, by types of the grammar. -/
def Further (g : Grammar) (σ σ' : Solutions) : Prop :=
  ∃ θ : Nat → Ty, (∀ k, (θ k).within g = true) ∧ ∀ t, σ'.zonk t = σ.read θ t

/-- What a run reaches. -/
structure Reaches (g : Grammar) (σ σ' : Solutions) : Prop where
  acyclic : σ'.Acyclic
  further : Further g σ σ'

/-- A grammar of types without `Any`, all metavariables among them. -/
structure Grammar.Open (g : Grammar) : Prop where
  metavar : ∀ k, g.metavar k = true
  noAny : g.prim "Any" = false

variable {σ σ' : Solutions} {t : Ty} {s : Bool} {position : Position} {as es : List Ty}

theorem Reaches.refl (hg : g.Open) (h : σ.Acyclic) : Reaches g σ σ :=
  ⟨h, .metavar, hg.metavar, fun _ => (Ty.subst_self _).symm⟩

theorem Further.within (h : Further g σ σ') (ht : (σ.zonk t).within g = true) :
    (σ'.zonk t).within g = true := by
  obtain ⟨θ, hθ, hr⟩ := h
  rw [hr]
  exact Ty.within_subst ht (fun _ => id) id fun k _ => hθ k

theorem Reaches.trans {σ₁ σ₂ : Solutions} (h : Reaches g σ σ₁) (h' : Reaches g σ₁ σ₂) :
    Reaches g σ σ₂ := by
  obtain ⟨θ, hθ, hread⟩ := h.further
  obtain ⟨θ', hθ', hread'⟩ := h'.further
  refine ⟨h'.acyclic, fun k => (θ k).subst θ', ?_, ?_⟩
  · intro k
    exact Ty.within_subst (hθ k) (fun _ => id) id fun j _ => hθ' j
  · intro t
    rw [hread', Solutions.read, hread, Solutions.read, Solutions.read, Ty.subst_subst]

/-- A further solution of the later assignments is one of the earlier. -/
theorem Further.read (h : Further g σ σ') (θ' : Nat → Ty) :
    ∃ θ, ∀ t, σ'.read θ' t = σ.read θ t := by
  obtain ⟨θ, -, hr⟩ := h
  refine ⟨fun k => (θ k).subst θ', ?_⟩
  intro t
  rw [Solutions.read, hr, Solutions.read, Ty.subst_subst, Solutions.read]

theorem Solutions.read_fn (σ : Solutions) (θ : Nat → Ty) (ps : List Ty) (r : Option Ty) (t : Ty) :
    σ.read θ (.fn ps r t) = .fn (ps.map (σ.read θ)) (r.map (σ.read θ)) (σ.read θ t) := by
  rw [Solutions.read, Solutions.zonk_fn, Ty.subst_fn, map_map, Option.map_map]
  rfl

theorem Solutions.read_app (σ : Solutions) (θ : Nat → Ty) (c : String) (a : List Ty) :
    σ.read θ (.app c a) = .app c (a.map (σ.read θ)) := by
  rw [Solutions.read, Solutions.zonk_app, Ty.subst_app, map_map]
  rfl

theorem Solutions.read_union (σ : Solutions) (θ : Nat → Ty) (a : List Ty) :
    σ.read θ (.union a) = .union (a.map (σ.read θ)) := by
  rw [Solutions.read, Solutions.zonk_union, Ty.subst_union, map_map]
  rfl

/-! ### Verdicts -/

/-- What straying has to do with what holds under every further solution. -/
structure Verdict (g : Grammar) (strayed : Bool) (holds : (Nat → Ty) → Prop) : Prop where
  fits : strayed = false → ∀ θ, holds θ
  misfits : g.union = false → strayed = true → ∀ θ, ¬holds θ

theorem Verdict.fine {holds : (Nat → Ty) → Prop} (h : ∀ θ, holds θ) : Verdict g false holds :=
  ⟨fun _ => h, fun _ hs => absurd hs Bool.false_ne_true⟩

theorem Verdict.congr {ho holds' : (Nat → Ty) → Prop} (h : Verdict g s ho)
    (heq : ∀ θ, ho θ ↔ holds' θ) : Verdict g s holds' :=
  ⟨fun hs θ => (heq θ).mp (h.fits hs θ), fun hu hs θ => (heq θ).not.mp (h.misfits hu hs θ)⟩

theorem Verdict.and {s s' : Bool} {ho ho' : (Nat → Ty) → Prop} (h : Verdict g s ho)
    (h' : Verdict g s' ho') : Verdict g (s || s') fun θ => ho θ ∧ ho' θ := by
  refine ⟨?_, ?_⟩
  · intro hs θ
    rw [Bool.or_eq_false_iff] at hs
    exact ⟨h.fits hs.1 θ, h'.fits hs.2 θ⟩
  · rintro hu hs θ ⟨hθ, hθ'⟩
    rcases Bool.or_eq_true_iff.mp hs with hs | hs
    · exact h.misfits hu hs θ hθ
    · exact h'.misfits hu hs θ hθ'

/-- Two types under assignments, at a position. -/
def Related (T : Tables) (position : Position) (σ : Solutions) (a e : Ty) (θ : Nat → Ty) : Prop :=
  position.holds T (σ.read θ a) (σ.read θ e) = true

/-- Two lists of types under assignments, at a position. -/
def AllRelated (T : Tables) (position : Position) (σ : Solutions) (as es : List Ty)
    (θ : Nat → Ty) : Prop :=
  position.AllHold T (as.map (σ.read θ)) (es.map (σ.read θ))

theorem Verdict.later {a e : Ty} (h : Verdict g s (Related T position σ a e))
    (hf : Further g σ σ') : Verdict g s (Related T position σ' a e) := by
  have hsh : ∀ θ', ∃ θ, Related T position σ' a e θ' ↔ Related T position σ a e θ := by
    intro θ'
    obtain ⟨θ, hr⟩ := hf.read θ'
    refine ⟨θ, ?_⟩
    unfold Related
    rw [hr, hr]
  refine ⟨?_, ?_⟩
  · intro hs θ'
    obtain ⟨θ, hsa⟩ := hsh θ'
    exact hsa.mpr (h.fits hs θ)
  · intro hu hs θ'
    obtain ⟨θ, hsa⟩ := hsh θ'
    exact hsa.not.mpr (h.misfits hu hs θ)

theorem Verdict.allLater (h : Verdict g s (AllRelated T position σ as es))
    (hf : Further g σ σ') : Verdict g s (AllRelated T position σ' as es) := by
  have hsh : ∀ θ', ∃ θ, AllRelated T position σ' as es θ' ↔ AllRelated T position σ as es θ := by
    intro θ'
    obtain ⟨θ, hr⟩ := hf.read θ'
    refine ⟨θ, ?_⟩
    unfold AllRelated
    rw [funext hr]
  refine ⟨?_, ?_⟩
  · intro hs θ'
    obtain ⟨θ, hsa⟩ := hsh θ'
    exact hsa.mpr (h.fits hs θ)
  · intro hu hs θ'
    obtain ⟨θ, hsa⟩ := hsh θ'
    exact hsa.not.mpr (h.misfits hu hs θ)

/-! ### Steps -/

/-- The unifier with these straying comparisons: a run gives a verdict on its two types. -/
def Settles (T : Tables) (g : Grammar) (unify : Solutions → Ty → Ty → Except Failure Solutions)
    (strays : Position → Solutions → Ty → Ty → Bool) : Prop :=
  ∀ (σ σ' : Solutions) (a e : Ty), σ.Acyclic → (σ.zonk a).within g = true →
    (σ.zonk e).within g = true → unify σ a e = .ok σ' →
    Reaches g σ σ' ∧ ∀ position, Verdict g (strays position σ a e) (Related T position σ' a e)

theorem bind_ok {x : Except Failure Solutions} {next : Solutions → Except Failure Solutions}
    (h : x.bind next = .ok σ') : ∃ σ₁, x = .ok σ₁ ∧ next σ₁ = .ok σ' := by
  cases x with
  | error f => cases h
  | ok σ₁ => exact ⟨σ₁, rfl, h⟩

variable {u : Solutions → Ty → Ty → Except Failure Solutions}
  {strays : Position → Solutions → Ty → Ty → Bool}

/-- A run over two lists. -/
theorem Settles.pairs (h : Settles T g u strays) (hg : g.Open) (hlen : as.length = es.length)
    (ha : σ.Acyclic) (has : ∀ a ∈ as, (σ.zonk a).within g = true)
    (hes : ∀ e ∈ es, (σ.zonk e).within g = true) (hrun : unifyPairs u σ as es = .ok σ') :
    Reaches g σ σ' ∧ ∀ position,
      Verdict g (straysPairs u (strays position) σ as es) (AllRelated T position σ' as es) := by
  induction as generalizing es σ with
  | nil =>
    cases es with
    | cons e es => cases hlen
    | nil =>
      cases hrun
      exact ⟨Reaches.refl hg ha, fun position => Verdict.fine fun θ => Forall₂.nil⟩
  | cons a as ih =>
    cases es with
    | nil => cases hlen
    | cons e es =>
      obtain ⟨σ₁, hfst, hre⟩ := bind_ok hrun
      obtain ⟨hr, hve⟩ := h σ σ₁ a e ha (has a mem_cons_self) (hes e mem_cons_self) hfst
      have hl : ∀ {ts : List Ty} {t : Ty}, (∀ b ∈ t :: ts, (σ.zonk b).within g = true) →
          ∀ b ∈ ts, (σ₁.zonk b).within g = true :=
        fun hts b hb => hr.further.within (hts b (mem_cons_of_mem _ hb))
      obtain ⟨hr', hv⟩ := ih (Nat.succ.inj hlen) hr.acyclic (hl has) (hl hes) hre
      refine ⟨hr.trans hr', ?_⟩
      intro position
      rw [straysPairs, hfst]
      refine (((hve position).later hr'.further).and (hv position)).congr ?_
      intro θ
      unfold AllRelated Related
      rw [map_cons, map_cons]
      exact Position.allHold_cons.symm

variable {left right : Ty} {c : String}

theorem unifyTypeLists_ok (h : unifyTypeLists u left right σ as es = .ok σ') :
    as.length = es.length ∧ unifyPairs u σ as es = .ok σ' := by
  unfold unifyTypeLists at h
  by_cases hlen : as.length = es.length
  · rw [if_pos hlen] at h
    exact ⟨hlen, h⟩
  · rw [if_neg hlen] at h
    cases h

theorem unifyRests_ok {r r' : Option Ty} (h : unifyRests u left right σ r r' = .ok σ') :
    r.isSome = r'.isSome ∧ unifyPairs u σ r.toList r'.toList = .ok σ' := by
  cases r with
  | none =>
    cases r' with
    | none => exact ⟨rfl, h⟩
    | some e => cases h
  | some a =>
    cases r' with
    | none => cases h
    | some e =>
      have h : u σ a e = .ok σ' := h
      refine ⟨rfl, ?_⟩
      show (u σ a e).bind _ = _
      rw [h]
      rfl

/-! ### Heads -/

theorem Ty.eq_of_openId {m : Nat} (h : t.openId = some m) : t = .metavar m := by
  cases t with
  | metavar k => rw [Option.some.inj h]
  | _ => cases h

theorem Ty.eq_of_isAny (h : t.isAny = true) : t = .prim "Any" := by
  cases t with
  | prim n => rw [beq_iff_eq.mp h]
  | _ => cases h

theorem Grammar.Open.notAny (hg : g.Open) (h : (σ.zonk t).within g = true) : t.isAny = false := by
  by_cases hany : t.isAny = true
  · rw [Ty.eq_of_isAny hany, Solutions.zonk_prim] at h
    exact absurd (hg.noAny.symm.trans h) Bool.false_ne_true
  · exact Bool.not_eq_true _ ▸ hany

theorem Further.prune (h : Further g σ σ') (ha : σ.Acyclic) (t : Ty) :
    σ'.zonk (σ.prune t) = σ'.zonk t := by
  obtain ⟨θ, -, hr⟩ := h
  rw [hr, hr, Solutions.read, Solutions.zonk_prune ha, Solutions.read]

/-- An assignment makes the metavariable stand for its target. -/
theorem bindTypeMeta_ok (hg : g.Open) (ha : σ.Acyclic) {m : Nat} (ho : σ.solution m = none)
    (ht : (σ.zonk t).within g = true) (h : bindTypeMeta σ m t = .ok σ') :
    Reaches g σ σ' ∧ σ'.zonk (.metavar m) = σ'.zonk t := by
  have htgt : σ.zonk (σ.prune t) = σ.zonk t := Solutions.zonk_prune ha t
  have hna : (σ.prune t).isAny = false := hg.notAny (htgt ▸ ht)
  unfold bindTypeMeta at h
  by_cases hs : σ.prune t = .metavar m
  · simp only [hs, if_true] at h
    cases h
    exact ⟨Reaches.refl hg ha, by rw [← htgt, hs]⟩
  · simp only [hs, hna, if_false, Bool.false_eq_true] at h
    by_cases hocc : (σ.zonk (σ.prune t)).within (.without m) = true
    · rw [if_pos hocc] at h
      cases h
      refine ⟨⟨⟨ha, ho, hocc⟩, Ty.assign m (σ.zonk (σ.prune t)), ?_, fun _ => rfl⟩, ?_⟩
      · intro k
        unfold Ty.assign
        by_cases hk : k = m
        · rw [if_pos hk, htgt]
          exact ht
        · rw [if_neg hk]
          exact hg.metavar k
      · rw [Solutions.zonk_cons, Solutions.zonk_cons, Solutions.zonk_open ho, ← htgt,
          Ty.subst_assign hocc]
        exact if_pos rfl
    · rw [if_neg hocc] at h
      cases h

/-- The arms give a verdict on two types that are no metavariables. -/
def SettlesArms (T : Tables) (g : Grammar) (arms : Solutions → Ty → Ty → Except Failure Solutions)
    (strays : Position → Solutions → Ty → Ty → Bool) : Prop :=
  ∀ (σ σ' : Solutions) (left right : Ty), σ.Acyclic → (σ.zonk left).within g = true →
    (σ.zonk right).within g = true → left.openId = none → right.openId = none →
    arms σ left right = .ok σ' → Reaches g σ σ' ∧
      ∀ position, Verdict g (strays position σ left right) (Related T position σ' left right)

/-- Two types that stand for one type are related at every position. -/
theorem related_of_eq {a e : Ty} (h : σ.zonk a = σ.zonk e) (θ : Nat → Ty) :
    Related T position σ a e θ := by
  unfold Related Solutions.read
  rw [h]
  exact position.holds_self _

theorem SettlesArms.heads {ar : Solutions → Ty → Ty → Except Failure Solutions}
    (h : SettlesArms T g ar strays) (hg : g.Open) :
    Settles T g (fun σ => unifyHeads (ar σ) σ) fun position σ =>
      straysHeads (strays position σ) σ := by
  intro σ σ' a e hacyc ha he hrun
  have hpa := Solutions.zonk_prune hacyc a
  have hpe := Solutions.zonk_prune hacyc e
  unfold unifyHeads at hrun
  unfold straysHeads
  by_cases hs : σ.prune a = σ.prune e
  · simp only [hs, if_true] at hrun
    cases hrun
    have hz : σ.zonk a = σ.zonk e := by rw [← hpa, hs, hpe]
    refine ⟨Reaches.refl hg hacyc, fun position => ?_⟩
    simp only [hs, if_true]
    exact Verdict.fine (related_of_eq hz)
  · simp only [hs, if_false] at hrun ⊢
    cases hl : (σ.prune a).openId with
    | some m =>
      have hm := Ty.eq_of_openId hl
      simp only [hl] at hrun
      obtain ⟨hre, hz⟩ := bindTypeMeta_ok hg hacyc (Solutions.prune_open hacyc hm) (hpe ▸ he) hrun
      rw [← hm, hre.further.prune hacyc, hre.further.prune hacyc] at hz
      exact ⟨hre, fun position => Verdict.fine (related_of_eq hz)⟩
    | none =>
      simp only [hl] at hrun
      cases hr : (σ.prune e).openId with
      | some m =>
        have hm := Ty.eq_of_openId hr
        simp only [hr] at hrun
        obtain ⟨hre, hz⟩ := bindTypeMeta_ok hg hacyc (Solutions.prune_open hacyc hm) (hpa ▸ ha) hrun
        rw [← hm, hre.further.prune hacyc, hre.further.prune hacyc] at hz
        exact ⟨hre, fun position => Verdict.fine (related_of_eq hz.symm)⟩
      | none =>
        simp only [hr] at hrun
        obtain ⟨hre, hv⟩ := h σ σ' _ _ hacyc (hpa ▸ ha) (hpe ▸ he) hl hr hrun
        refine ⟨hre, fun position => (hv position).congr fun θ => ?_⟩
        unfold Related Solutions.read
        rw [hre.further.prune hacyc, hre.further.prune hacyc]

/-! ### Arms -/

/-- A comparison of closed types decides what holds under every further solution. -/
theorem verdict_closed (hl : closedMonomorphic σ left = true)
    (hr : closedMonomorphic σ right = true) :
    Verdict g (!position.holds T (σ.zonk left) (σ.zonk right))
      (Related T position σ left right) := by
  have hre : ∀ θ, Related T position σ left right θ ↔
      position.holds T (σ.zonk left) (σ.zonk right) = true := by
    intro θ
    unfold Related Solutions.read
    rw [Ty.subst_of_closed hl, Ty.subst_of_closed hr]
  refine ⟨?_, ?_⟩
  · intro hs θ
    exact (hre θ).mpr (by simpa using hs)
  · intro _ hs θ hθ
    rw [(hre θ).mp hθ] at hs
    exact absurd hs Bool.false_ne_true

theorem verdict_app (hlen : as.length = es.length)
    (h : Verdict g s (AllRelated T (position.arg T c) σ as es)) :
    Verdict g s (Related T position σ (.app c as) (.app c es)) := by
  refine h.congr ?_
  intro θ
  unfold Related AllRelated
  rw [Solutions.read_app, Solutions.read_app]
  exact (Position.holds_app (by rw [length_map, length_map, hlen])).symm

theorem verdict_union (hun : g.union = true) (h : Verdict g s (AllRelated T position σ as es)) :
    Verdict g s (Related T position σ (.union as) (.union es)) := by
  refine ⟨?_, fun hn => absurd (hun.symm.trans hn) (by decide)⟩
  intro hs θ
  unfold Related
  rw [Solutions.read_union, Solutions.read_union]
  exact Position.holds_union (h.fits hs θ)

theorem within_zonk_app {ar : List Ty} (h : (σ.zonk (.app c ar)).within g = true) :
    ∀ a ∈ ar, (σ.zonk a).within g = true := by
  rw [Solutions.zonk_app, Ty.within_app] at h
  exact fun a ha => h _ (mem_map_of_mem ha)

theorem within_zonk_union {al : List Ty} (h : (σ.zonk (.union al)).within g = true) :
    g.union = true ∧ ∀ a ∈ al, (σ.zonk a).within g = true := by
  rw [Solutions.zonk_union, Ty.within_union] at h
  exact ⟨h.1, fun a ha => h.2 _ (mem_map_of_mem ha)⟩

theorem within_zonk_fn {ps : List Ty} {r : Option Ty} (h : (σ.zonk (.fn ps r t)).within g = true) :
    (∀ a ∈ ps, (σ.zonk a).within g = true) ∧ (∀ a ∈ r.toList, (σ.zonk a).within g = true) ∧
      (σ.zonk t).within g = true := by
  rw [Solutions.zonk_fn, Ty.within_fn] at h
  refine ⟨fun a ha => h.1 _ (mem_map_of_mem ha), ?_, h.2.2⟩
  intro a ha
  exact h.2.1 _ (Option.mem_map_of_mem _ (Option.mem_toList.mp ha))

/-- Two applications of one constructor, walked argument by argument. -/
theorem Settles.app (h : Settles T g u strays) (hg : g.Open) (ha : σ.Acyclic)
    (hl : (σ.zonk (.app c as)).within g = true) (hr : (σ.zonk (.app c es)).within g = true)
    (hrun : unifyTypeLists u (.app c as) (.app c es) σ as es = .ok σ') :
    Reaches g σ σ' ∧ ∀ position : Position,
      Verdict g (straysPairs u (strays (position.arg T c)) σ as es)
        (Related T position σ' (.app c as) (.app c es)) := by
  obtain ⟨hlen, hp⟩ := unifyTypeLists_ok hrun
  obtain ⟨hre, hv⟩ := h.pairs hg hlen ha (within_zonk_app hl) (within_zonk_app hr) hp
  exact ⟨hre, fun position => verdict_app hlen (hv _)⟩

/-- Two unions, walked alternative by alternative. -/
theorem Settles.union (h : Settles T g u strays) (hg : g.Open) (ha : σ.Acyclic)
    (hl : (σ.zonk (.union as)).within g = true) (hr : (σ.zonk (.union es)).within g = true)
    (hrun : unifyTypeLists u (.union as) (.union es) σ as es = .ok σ') :
    Reaches g σ σ' ∧ ∀ position : Position, Verdict g (straysPairs u (strays position) σ as es)
        (Related T position σ' (.union as) (.union es)) := by
  obtain ⟨hlen, hp⟩ := unifyTypeLists_ok hrun
  obtain ⟨hre, hv⟩ := h.pairs hg hlen ha (within_zonk_union hl).2 (within_zonk_union hr).2 hp
  exact ⟨hre, fun position => verdict_union (within_zonk_union hl).1 (hv _)⟩

/-- One arm below an invariant constructor. -/
theorem Settles.invariantArms (h : Settles T g u strays) (hg : g.Open) :
    SettlesArms T g (unifyInvariantArms T u) (straysInvariantArms T u strays) := by
  intro σ σ' left right hacyc hl hr _ _ hrun
  have hla : left.isAny = false := hg.notAny hl
  have hra : right.isAny = false := hg.notAny hr
  unfold unifyInvariantArms at hrun
  unfold straysInvariantArms
  simp only [hla, hra, Bool.and_false, Bool.or_false, Bool.false_eq_true, if_false] at hrun
  by_cases hcl : (closedMonomorphic σ left && closedMonomorphic σ right &&
      typeInvariantEqual T (σ.zonk left) (σ.zonk right)) = true
  · rw [if_pos hcl] at hrun
    cases hrun
    rw [Bool.and_eq_true, Bool.and_eq_true] at hcl
    refine ⟨Reaches.refl hg hacyc, fun position => ?_⟩
    rw [if_pos (by rw [hcl.1.1, hcl.1.2, hcl.2]; rfl)]
    exact verdict_closed hcl.1.1 hcl.1.2
  · simp only [if_neg hcl] at hrun ⊢
    cases left with
    | app c as =>
      cases right with
      | app d es =>
        by_cases hcd : c = d
        · subst hcd
          simp only [if_true] at hrun
          exact h.app hg hacyc hl hr hrun
        · simp only [hcd, if_false] at hrun
          cases hrun
      | _ => cases hrun
    | union as =>
      cases right with
      | union es => exact h.union hg hacyc hl hr hrun
      | _ => cases hrun
    | _ => cases hrun

/-- One arm of the directional walk. -/
theorem Settles.arms {i : Solutions → Ty → Ty → Except Failure Solutions}
    {si : Position → Solutions → Ty → Ty → Bool} (hinv : Settles T g i si)
    (h : Settles T g u strays) (hg : g.Open) :
    SettlesArms T g (unifyArms T i u) (straysArms T i u si strays) := by
  intro σ σ' left right hacyc hl hright _ _ hrun
  have hla : left.isAny = false := hg.notAny hl
  have hra : right.isAny = false := hg.notAny hright
  unfold unifyArms at hrun
  unfold straysArms
  simp only [hla, hra, Bool.or_false, Bool.false_eq_true, if_false] at hrun
  by_cases hcl : (closedMonomorphic σ left && closedMonomorphic σ right &&
      typeCompatible T (σ.zonk left) (σ.zonk right)) = true
  · rw [if_pos hcl] at hrun
    cases hrun
    rw [Bool.and_eq_true, Bool.and_eq_true] at hcl
    refine ⟨Reaches.refl hg hacyc, fun position => ?_⟩
    rw [if_pos (by rw [hcl.1.1, hcl.1.2, hcl.2]; rfl)]
    exact verdict_closed hcl.1.1 hcl.1.2
  · simp only [if_neg hcl] at hrun ⊢
    cases left with
    | fn ps r t =>
      cases right with
      | fn ps' r' t' =>
        obtain ⟨σ₁, hp, hrun⟩ := bind_ok hrun
        obtain ⟨σ₂, hre, hret⟩ := bind_ok hrun
        obtain ⟨hlen, hpa⟩ := unifyTypeLists_ok hp
        obtain ⟨hs, hres⟩ := unifyRests_ok hre
        obtain ⟨hps, hr, ht⟩ := within_zonk_fn hl
        obtain ⟨hps', hr', ht'⟩ := within_zonk_fn hright
        have hle : r.toList.length = r'.toList.length := by
          rw [Option.length_toList, Option.length_toList, hs]
        obtain ⟨hr₁, hv₁⟩ := h.pairs hg hlen hacyc hps hps' hpa
        obtain ⟨hr₂, hv₂⟩ := h.pairs hg hle hr₁.acyclic (fun a ha => hr₁.further.within (hr a ha))
          (fun a ha => hr₁.further.within (hr' a ha)) hres
        have hr₁₂ := hr₁.trans hr₂
        obtain ⟨hr₃, hv₃⟩ := h σ₂ σ' t t' hr₂.acyclic
          (hr₁₂.further.within ht) (hr₁₂.further.within ht') hret
        refine ⟨hr₁₂.trans hr₃, fun position => ?_⟩
        simp only [hp, hre]
        refine (((hv₁ position.param).allLater (hr₂.trans hr₃).further).and
          (((hv₂ position.param).allLater hr₃.further).and (hv₃ position.ret))).congr ?_
        intro θ
        unfold Related AllRelated
        rw [Solutions.read_fn, Solutions.read_fn, Position.holds_fn
          (by rw [length_map, length_map, hlen])
          (by rw [Option.isSome_map, Option.isSome_map, hs]), Option.toList_map,
          Option.toList_map]
      | _ => cases hrun
    | app c as =>
      cases right with
      | app d es =>
        by_cases hcd : c = d
        · subst hcd
          by_cases hi : invariantConstructors.contains c = true
          · simp only [hi, beq_self_eq_true, Bool.and_true, if_true] at hrun ⊢
            exact hinv.app hg hacyc hl hright hrun
          · simp only [hi, Bool.false_and, if_true, if_false, Bool.false_eq_true] at hrun ⊢
            exact h.app hg hacyc hl hright hrun
        · simp only [hcd, beq_eq_false_iff_ne.mpr hcd, Bool.and_false, if_false,
            Bool.false_eq_true] at hrun
          cases hrun
      | _ => cases hrun
    | union as =>
      cases right with
      | union es => exact h.union hg hacyc hl hright hrun
      | _ => cases hrun
    | _ => cases hrun

end

/-- Types without `Any`, with or without unions. -/
def Grammar.known (union : Bool) : Grammar := ⟨fun name => name != "Any", union, fun _ => true⟩

theorem Grammar.open_known (u : Bool) : (Grammar.known u).Open := ⟨fun _ => rfl, rfl⟩

theorem settles_invariantTypes (T : Tables) {g : Grammar} (hg : g.Open) (k : Nat) :
    Settles T g (unifyInvariantTypes T k) (straysInvariant T k) := by
  induction k with
  | zero =>
    intro σ σ' a e _ _ _ hrun
    cases hrun
  | succ k ih => exact (ih.invariantArms hg).heads hg

/-- **Every run gives a verdict on its two types.** -/
theorem settles_types (T : Tables) {g : Grammar} (hg : g.Open) (k : Nat) :
    Settles T g (unifyTypes T k) (strays T k) := by
  induction k with
  | zero =>
    intro σ σ' a e _ _ _ hrun
    cases hrun
  | succ k ih => exact ((settles_invariantTypes T hg k).arms ih hg).heads hg

/-- **A run that does not stray is sound, and without unions only such a run is.** -/
theorem unification_sound (T : Tables) (σ σ' : Solutions) (a e : Ty) (fuel : Nat)
    (hacyclic : σ.Acyclic) (ha : (σ.zonk a).within (.known true) = true)
    (he : (σ.zonk e).within (.known true) = true) (hrun : unifyTypes T fuel σ a e = .ok σ') :
    (strays T fuel .accepts σ a e = false → ∀ θ, T.Accepts (σ'.read θ a) (σ'.read θ e)) ∧
    ((σ.zonk a).within (.known false) = true → (σ.zonk e).within (.known false) = true →
      ((∀ θ, T.Accepts (σ'.read θ a) (σ'.read θ e)) ↔ strays T fuel .accepts σ a e = false)) := by
  have hf := ((settles_types T (Grammar.open_known true) fuel σ σ' a e hacyclic ha he hrun).2
    .accepts).fits
  refine ⟨hf, ?_⟩
  intro ha' he'
  refine ⟨?_, hf⟩
  intro hso
  by_cases hs : strays T fuel .accepts σ a e = true
  · have hm := ((settles_types T (Grammar.open_known false) fuel σ σ' a e hacyclic ha' he'
      hrun).2 .accepts).misfits rfl hs
    exact absurd (hso .metavar) (hm .metavar)
  · exact Bool.not_eq_true _ ▸ hs

/-- Tables that know no union, no enumeration and no qualified name. -/
def bareTables : Tables := ⟨fun _ => none, fun _ => false, fun _ => false, fun _ => none⟩

/-- A function of an unknown parameter is unified with a function of a `Float`. -/
theorem unknown_parameter_unifies : bareTables.Accepts
      (Solutions.read [(0, .prim "Float")] .metavar (.fn [.metavar 0] none (.prim "Int")))
      (Solutions.read [(0, .prim "Float")] .metavar (.fn [.prim "Float"] none (.prim "Int"))) :=
  (unification_sound bareTables [] [(0, .prim "Float")] (.fn [.metavar 0] none (.prim "Int"))
    (.fn [.prim "Float"] none (.prim "Int")) 2 trivial (by decide) (by decide)
    rfl).1 (by decide) .metavar

/-- A function of an `Int` is unified with a function of a `Float`, and is not accepted for it. -/
theorem wider_parameter_unifies : unifyTypes bareTables 2 [] (.fn [.prim "Int"] none (.prim "Int"))
        (.fn [.prim "Float"] none (.prim "Int")) = .ok [] ∧
      ¬bareTables.Accepts (Solutions.read [] .metavar (.fn [.prim "Int"] none (.prim "Int")))
        (Solutions.read [] .metavar (.fn [.prim "Float"] none (.prim "Int"))) :=
  ⟨rfl, by decide⟩

end Beagle.Types
