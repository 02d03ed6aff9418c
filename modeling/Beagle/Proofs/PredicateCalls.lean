/-
The predicates keep their spellings.

Registering enters a free name, and leaves alone what is registered.  An alias is added
and a name put anew only when nobody else goes by it, and what a call refuses is refused
before its first commit: whatever it registers on the way, it finds as the registry says.
So every session that the calls lead to has a sound registry, in which nothing is lost.
-/
import Beagle.Proofs.SchemaFacts

namespace Beagle.Store.Schema

open Beagle.Lib

/-- The default alias. -/
def marked (spelling : String) : String := ":" ++ spelling

/-- The predicates that the layer itself writes under, and not through a builder of its own. -/
def Reserved (name : String) : Prop :=
  name = cardinalityPredicate ∨ name = valueKindPredicate ∨ name = predicateNamePredicate

theorem marked_not_reserved (sp : String) : ¬Reserved (marked sp) := by
  have hh : (marked sp).toList.head? = some ':' := by
    unfold marked
    rw [String.toList_append]
    rfl
  rintro (h | h | h) <;> rw [h] at hh <;> exact absurd hh (by decide)

abbrev SoundFacts (facts : List Fact) : Prop := (registry facts).Sound marked Reserved

abbrev ReadyFacts (facts : List Fact) : Prop := (registry facts).Ready Reserved

abbrev Follows (facts facts' : List Fact) : Prop := (registry facts).Grows (registry facts')

section

variable {K : KeyHashing} {H : Hashing} {st : Term → String} {s : Session} {fs : List Fact}

/-! ### Resolving -/

variable {sp : String}

theorem Shows.resolve_free (h : Shows K H s fs) (hf : (registry fs).Free sp) :
    resolvePredicate K sp s = some (.ok none, s) := by
  unfold resolvePredicate
  rw [Attempt.bind_of_ok (Attempt.get_run s), h.ids_free hf]
  rfl

theorem Shows.resolve_only (h : Shows K H s fs) {p sp : String}
    (hsp : (registry fs).Spells p sp) (ho : (registry fs).Only p sp) :
    resolvePredicate K sp s = some (.ok (some (text p)), s) := by
  unfold resolvePredicate
  rw [Attempt.bind_of_ok (Attempt.get_run s), h.ids_only hsp ho]
  rfl

/-- A spelling leads to the one predicate that goes by it, or to none. -/
theorem Shows.resolve_cases (h : Shows K H s fs) (hs : SoundFacts fs) (spelling : String) :
    ((registry fs).Free spelling ∧ resolvePredicate K spelling s = some (.ok none, s)) ∨
      ∃ p, (registry fs).Spells p spelling ∧
        resolvePredicate K spelling s = some (.ok (some (text p)), s) := by
  by_cases hsp : ∃ p, (registry fs).Spells p spelling
  · obtain ⟨p, hp⟩ := hsp
    exact Or.inr ⟨p, hp, h.resolve_only hp (hs.only hp)⟩
  · have hf : (registry fs).Free spelling := fun p hp => hsp ⟨p, hp⟩
    exact Or.inl ⟨hf, h.resolve_free hf⟩

variable {spelling : String}

theorem Shows.resolves_iff (h : Shows K H s fs) (hs : SoundFacts fs)
    {pid : Term} :
    Resolves K s spelling pid ↔ ∃ p, pid = text p ∧ (registry fs).Spells p spelling := by
  unfold Resolves
  rcases h.resolve_cases hs spelling with ⟨hf, hrun⟩ | ⟨p, hp, hrun⟩
  · rw [hrun]
    constructor
    · intro heq
      exact nomatch heq
    · rintro ⟨p, -, hp⟩
      exact absurd hp (hf p)
  · rw [hrun]
    constructor
    · intro heq
      obtain ⟨heq, -⟩ := Prod.mk.inj (Option.some.inj heq)
      obtain rfl := Option.some.inj (Except.ok.inj heq)
      exact ⟨p, rfl, hp⟩
    · rintro ⟨q, rfl, hq⟩
      rw [hs.unique hp hq]

theorem eq_text_of_same {t : Term} (h : t.same (text spelling) = true) :
    t = text spelling := by
  cases t with
  | triple => exact nomatch h
  | atom v =>
    cases v with
    | string o => exact congrArg Term.atom (beq_iff_eq.mp h)
    | _ => exact nomatch h

/-- What is not taken is free or the candidate's. -/
theorem Shows.of_not_taken (h : Shows K H s fs) (hs : SoundFacts fs) {c : Option Term}
    (ht : taken c (predicateIds K s sp) = false) {q : String}
    (hq : (registry fs).Spells q sp) : c = some (text q) := by
  rw [h.ids_only hq (hs.only hq)] at ht
  unfold taken at ht
  rw [Bool.not_eq_false', Option.any_eq_true] at ht
  obtain ⟨o, rfl, hsa⟩ := ht
  rw [eq_text_of_same hsa]

theorem taken_own (p : String) : taken (some (text p)) [text p] = false := by
  show (!(text p).same (text p)) = false
  rw [text_same, decide_eq_true rfl]
  rfl

/-! ### Programs last -/

theorem lasting_resolve (sp : String) : Lasting H (resolvePredicate K sp) := by
  refine lasting_get.bind fun s => ?_
  split
  · exact lasting_pure _
  · exact lasting_pure _
  · exact lasting_raise _

theorem lasting_register (sp : String) : Lasting H (registerPredicate K H st sp) := by
  refine (lasting_resolve sp).bind fun c => lasting_get.bind fun s => ?_
  dsimp only
  split
  · exact lasting_raise _
  · refine (lasting_ask _).bind fun b => ?_
    split
    · exact lasting_pure _
    · exact (lasting_commit b).bind fun _ => lasting_pure _

theorem lasting_cardinality (p : String) : Lasting H (cardinality K p) := by
  refine (lasting_resolve p).bind fun pid => (lasting_resolve _).bind fun c =>
    lasting_get.bind fun s => ?_
  split
  · exact lasting_pure _
  · exact lasting_pure _

theorem lasting_write (sb pid : Term) (p : String) (v : Term) :
    Lasting H (writeValue K H sb pid p v) := by
  refine (lasting_ask _).bind fun b => (lasting_cardinality p).bind fun c => ?_
  exact (lasting_ask _).bind fun w => (lasting_commit _).bind fun _ => lasting_pure _

theorem lasting_assert (sb : Term) (p : String) (v : Term) :
    Lasting H (assertValue K H st sb p v) :=
  (lasting_register p).bind fun pid => lasting_write sb pid p v

theorem lasting_define (p c k : String) : Lasting H (defPredicate K H st p c k) := by
  refine (lasting_register p).bind fun pid => ?_
  exact (lasting_assert _ _ _).bind fun _ => (lasting_assert _ _ _).bind fun _ => lasting_pure _

theorem lasting_addAlias (pid : Term) (an : String) : Lasting H (addAlias K H pid an) :=
  (lasting_ask _).bind lasting_commit

theorem lasting_alias (sp an : String) : Lasting H (aliasPredicate K H st sp an) := by
  refine (lasting_resolve sp).bind fun rd => lasting_get.bind fun s => ?_
  dsimp only
  split
  · exact lasting_raise _
  · refine (lasting_register sp).bind fun pid => lasting_get.bind fun s' => ?_
    split
    · exact (lasting_addAlias _ _).bind fun _ => lasting_pure _
    · exact lasting_pure _

theorem lasting_keepOldName (pid : Term) (oln : String) : Lasting H (keepOldName K H pid oln) := by
  refine lasting_get.bind fun s => ?_
  split
  · dsimp only
    split
    · exact lasting_addAlias _ _
    · exact lasting_pure _
  · exact lasting_pure _

theorem lasting_rename (sp nn : String) : Lasting H (renamePredicate K H st sp nn) := by
  refine (lasting_resolve sp).bind fun rd => lasting_get.bind fun s => ?_
  dsimp only
  split
  · exact lasting_raise _
  split
  · exact lasting_raise _
  refine (lasting_register sp).bind fun pid => lasting_get.bind fun s' => ?_
  split
  · exact lasting_pure _
  · refine (lasting_keepOldName _ _).bind fun _ => (lasting_assert _ _ _).bind fun _ => ?_
    exact (lasting_alias _ _).bind fun _ => lasting_pure _

theorem lasting_call (c : Call) : Lasting H (c.run K H st) := by
  cases c with
  | register sp => exact lasting_register sp
  | define p ca k => exact lasting_define p ca k
  | addAlias sp an => exact lasting_alias sp an
  | rename sp nn => exact lasting_rename sp nn

/-! ### Registering -/

theorem Shows.registration (h : Shows K H s fs) (hsz : MachineSized s.root.store) (pid : Term)
    (sp da : String) (n f : Bool) :
    registration s.root pid sp da n f = .ok (Fresh s ((if n then [] else
          [assertOperation ⟨pid, text predicateNamePredicate, text sp⟩]) ++
        if f then [assertOperation ⟨pid, text predicateAliasPredicate, text da⟩]
        else [])) := by
  unfold Schema.registration
  rw [h.stands.opened]
  cases n with
  | true =>
    cases f with
    | true => exact h.stands.asserted hsz _ _
    | false => rfl
  | false =>
    show (asserting _ _ >>= _) = _
    rw [h.stands.asserted hsz]
    cases f with
    | true => exact h.stands.asserted hsz _ _
    | false => rfl

/-- What is registered, registered again: nothing, or its default alias where that is free. -/
theorem Shows.register_known (h : Shows K H s fs) {p sp name : String}
    (hsp : (registry fs).Spells p sp) (ho : (registry fs).Only p sp)
    (hn : (registry fs).lastName p = some name)
    (hm : (registry fs).Only p (marked name)) :
    Gives (registerPredicate K H st sp) s fun r s' => r = .ok (text p) ∧
      ((registry fs).Spells p (marked name) → s' = s) ∧
      ((registry fs).Spells p (marked name) ∧ s' = s ∨
        Shows K H s' (fs ++ [⟨p, predicateAliasPredicate, marked name⟩])) := by
  refine Gives.sized h.stands (lasting_register sp) fun hsz => ?_
  have hcan : canonicalName K st s sp (some (text p)) = name :=
    h.predicateName st hn
  have hna := (h.named_iff p).mpr ⟨name, hn⟩
  unfold registerPredicate
  refine Gives.step (h.resolve_only hsp ho) (Gives.step (a := s) rfl ?_)
  dsimp only
  rw [hcan, Option.getD_some, hna]
  by_cases hhas : (registry fs).Spells p (marked name)
  · rw [show predicateIds K s (":" ++ name) = [text p] from h.ids_only hhas hm, taken_own]
    refine Gives.step (ask_ok (h.registration hsz _ _ _ _ _)) ?_
    exact Gives.pure ⟨rfl, fun _ => rfl, Or.inl ⟨hhas, rfl⟩⟩
  · have hf : (registry fs).Free (marked name) := fun q hq => hhas (hm q hq ▸ hq)
    rw [show predicateIds K s (":" ++ name) = [] from h.ids_free hf]
    let ad : List Fact := [⟨p, predicateAliasPredicate, marked name⟩]
    have hb : Schema.registration s.root (text p) sp (":" ++ name) (!false) true =
        .ok (Fresh s (ad.map fun f => assertOperation f.triple)) :=
      h.registration hsz (text p) sp (":" ++ name) true true
    have hc := h.commit_asserts (List.cons_ne_nil _ _ : ad ≠ [])
    refine Gives.step (ask_ok hb) ?_
    refine Gives.bind h.stands (lasting_commit _) (fun _ => lasting_pure _) hc
      (fun e s' he => nomatch he.1) fun _ s' hcom => ?_
    exact Gives.pure ⟨rfl, fun h => absurd h hhas, Or.inr hcom.2⟩

/-- In a sound registry what is registered stays as it is. -/
theorem Shows.register_again (h : Shows K H s fs) (hs : SoundFacts fs) {p sp : String}
    (hsp : (registry fs).Spells p sp) :
    Gives (registerPredicate K H st sp) s fun r s' => r = .ok (text p) ∧ s' = s := by
  obtain ⟨name, hn⟩ := hs.named hsp
  have hm := hs.marked hn
  exact (h.register_known hsp (hs.only hsp) hn (hs.only hm)).mono fun r s' hr => ⟨hr.1, hr.2.1 hm⟩

/-- A free name is entered, unless its default alias is taken. -/
theorem Shows.register_free (h : Shows K H s fs) (hs : SoundFacts fs)
    (hf : (registry fs).Free sp) :
    Gives (registerPredicate K H st sp) s fun r s' =>
      (∃ fd, r = .error (.collision fd) ∧ s' = s) ∨
      r = .ok (text sp) ∧ (registry fs).Free (marked sp) ∧
        Shows K H s' (fs ++ [⟨sp, predicateNamePredicate, sp⟩] ++
          [⟨sp, predicateAliasPredicate, marked sp⟩]) := by
  refine Gives.sized h.stands (lasting_register sp) fun hsz => ?_
  have hu : (registry fs).lastName sp = none := by
    cases hl : (registry fs).lastName sp with
    | none => rfl
    | some n => exact absurd (hs.own (Registry.spells_of_lastName hl)) (hf sp)
  have hn : (s.view.byT12 K (text sp) (text predicateNamePredicate)).isEmpty = true := by
    by_contra hne
    rw [Bool.not_eq_true, h.named_iff, hu] at hne
    obtain ⟨n, hna⟩ := hne
    exact nomatch hna
  unfold registerPredicate
  refine Gives.step (h.resolve_free hf) (Gives.step (a := s) rfl ?_)
  dsimp only
  rw [show canonicalName K st s sp none = sp from rfl, Option.getD_none, hn]
  by_cases hm : ∃ q, (registry fs).Spells q (marked sp)
  · obtain ⟨q, hq⟩ := hm
    rw [show predicateIds K s (":" ++ sp) = [text q] from h.ids_only hq (hs.only hq)]
    exact Gives.of_run rfl (Or.inl ⟨_, rfl, rfl⟩)
  · have hf' : (registry fs).Free (marked sp) := fun q hq => hm ⟨q, hq⟩
    rw [show predicateIds K s (":" ++ sp) = [] from h.ids_free hf']
    let ad : List Fact := [⟨sp, predicateNamePredicate, sp⟩,
      ⟨sp, predicateAliasPredicate, marked sp⟩]
    have hb : Schema.registration s.root (text sp) sp (":" ++ sp) (!true)
        true = .ok (Fresh s (ad.map fun f => assertOperation f.triple)) :=
      h.registration hsz (text sp) sp (":" ++ sp) false true
    have hc := h.commit_asserts (List.cons_ne_nil _ _ : ad ≠ [])
    refine Gives.step (ask_ok hb) ?_
    refine Gives.bind h.stands (lasting_commit _) (fun _ => lasting_pure _) hc
      (fun e s' he => nomatch he.1) fun _ s' hcom => ?_
    refine Gives.pure (Or.inr ⟨rfl, hf', ?_⟩)
    rw [List.append_assoc]
    exact hcom.2

/-- What a call that returns an identity owes: a sound registry that has lost nothing. -/
structure Settles (K : KeyHashing) (H : Hashing) (facts : List Fact) (s' : Session)
    (facts' : List Fact) : Prop where
  shows : Shows K H s' facts'
  sound : SoundFacts facts'
  follows : Follows facts facts'

variable (h : Shows K H s fs)
include h

variable (hs : SoundFacts fs)
include hs

/-- **A registration refuses at once, or settles with the spelling registered.** -/
theorem Shows.registers (sp : String) : Gives (registerPredicate K H st sp) s fun r s' =>
      (∃ fd, r = .error (.collision fd) ∧ s' = s ∧ (registry fs).Free sp) ∨
      ∃ p fs', r = .ok (text p) ∧ Settles K H fs s' fs' ∧ (registry fs').Spells p sp ∧
        (∀ q o, (registry fs').Spells q o → (registry fs).Spells q o ∨ q = p) ∧
        (registry fs').lastName p = some (Schema.predicateName K st s (text p)) := by
  rcases h.resolve_cases hs sp with ⟨hf, -⟩ | ⟨p, hp, -⟩
  · refine (h.register_free hs hf).mono fun r s' hr => ?_
    rcases hr with ⟨fd, hr, hsa⟩ | ⟨hr, hf', hsh⟩
    · exact Or.inl ⟨fd, hr, hsa, hf⟩
    · have hre : registry (fs ++ [⟨sp, predicateNamePredicate, sp⟩] ++
          [⟨sp, predicateAliasPredicate, marked sp⟩]) =
          ((registry fs).addName sp sp).addAlias sp (marked sp) := by
        rw [registry_alias, registry_name]
      have hu : (registry fs).lastName sp = none := by
        cases hl : (registry fs).lastName sp with
        | none => rfl
        | some n => exact absurd (hs.own (Registry.spells_of_lastName hl)) (hf sp)
      refine Or.inr ⟨sp, _, hr, ⟨hsh, ?_, ?_⟩, ?_, ?_, ?_⟩
      · rw [SoundFacts, hre]
        exact hs.enter marked_not_reserved hf hf'
      · intro q o hq
        rw [hre]
        exact Registry.spells_enter.mpr (Or.inl hq)
      · rw [hre]
        exact Registry.spells_enter.mpr (Or.inr ⟨rfl, Or.inl rfl⟩)
      · intro q o hq
        rw [hre] at hq
        exact (Registry.spells_enter.mp hq).imp_right And.left
      · rw [hre, Registry.addAlias_lastName, h.predicateName_unnamed st hu]
        exact Registry.lastName_named (Or.inl rfl)
  · refine (h.register_again hs hp).mono fun r s' hr => ?_
    obtain ⟨rfl, rfl⟩ := hr
    obtain ⟨n, hn⟩ := hs.named hp
    refine Or.inr ⟨p, fs, rfl, ⟨h, hs, Registry.Grows.refl _⟩, hp, fun _ _ hq => Or.inl hq, ?_⟩
    rw [h.predicateName st hn]
    exact hn

/-! ### Writing a value -/

theorem Shows.cardinality_ok (pn : String) : ∃ c, cardinality K pn s = some (.ok c, s) := by
  have hf : ∀ sp, ∃ fd, resolvePredicate K sp s = some (.ok fd, s) := by
    intro sp
    rcases h.resolve_cases hs sp with ⟨-, hrun⟩ | ⟨p, -, hrun⟩
    · exact ⟨_, hrun⟩
    · exact ⟨_, hrun⟩
  obtain ⟨pid, hpid⟩ := hf pn
  obtain ⟨c, hc⟩ := hf cardinalityPredicate
  unfold cardinality
  rw [Attempt.bind_of_ok hpid, Attempt.bind_of_ok hc, Attempt.bind_of_ok (Attempt.get_run s)]
  cases pid with
  | none => exact ⟨_, rfl⟩
  | some pid =>
    cases c with
    | none => exact ⟨_, rfl⟩
    | some c => exact ⟨_, rfl⟩

/-- A value is put behind those under its pair, or in their place. -/
theorem Shows.writes (sb pd p v : String) :
    Gives (writeValue K H (text sb) (text pd) p (text v)) s fun r s' =>
      (∃ oc, r = .ok oc) ∧ (Shows K H s' (fs ++ [⟨sb, pd, v⟩]) ∨
          Shows K H s' (apart sb pd fs ++ [⟨sb, pd, v⟩])) := by
  refine Gives.sized h.stands (lasting_write _ _ _ _) fun hsz => ?_
  obtain ⟨c, hca⟩ := h.cardinality_ok hs p
  unfold writeValue
  refine Gives.step (ask_ok h.stands.opened) (Gives.step hca ?_)
  by_cases hsgl : c = single
  · have hco : compileSingleUpdate K s.view (text sb) (text pd) (text v) ≠ [] := by
      unfold compileSingleUpdate
      exact List.append_ne_nil_of_right_ne_nil _ (List.cons_ne_nil _ _)
    obtain ⟨oc, happ⟩ := h.stands.appended hsz [] hco
    refine Gives.step (ask_ok ((if_pos hsgl).trans happ)) ?_
    refine Gives.bind h.stands (lasting_commit _) (fun _ => lasting_pure _)
      (h.commit_update sb pd v) (fun e s' he => nomatch he.1) fun _ s' hcom => ?_
    exact Gives.pure ⟨⟨_, rfl⟩, Or.inr hcom.2⟩
  · let a : List Fact := [⟨sb, pd, v⟩]
    obtain ⟨oc, happ⟩ := h.stands.appended hsz []
      (List.cons_ne_nil _ _ : (a.map fun f => assertOperation f.triple) ≠ [])
    have hc := h.commit_asserts (List.cons_ne_nil _ _ : a ≠ [])
    refine Gives.step (ask_ok ((if_neg hsgl).trans happ)) ?_
    refine Gives.bind h.stands (lasting_commit _) (fun _ => lasting_pure _) hc
      (fun e s' he => nomatch he.1) fun _ s' hcom => ?_
    exact Gives.pure ⟨⟨_, rfl⟩, Or.inl hcom.2⟩

/-- A value under a predicate that spells nothing leaves the registry as it is. -/
theorem Shows.writes_other {pd : String} (hn : pd ≠ predicateNamePredicate)
    (ha : pd ≠ predicateAliasPredicate) (sb p v : String) :
    Gives (writeValue K H (text sb) (text pd) p (text v)) s fun r s' =>
      (∃ oc, r = .ok oc) ∧ ∃ fs', Shows K H s' fs' ∧ registry fs' = registry fs := by
  refine (h.writes hs sb pd p v).mono fun r s' hr => ⟨hr.1, ?_⟩
  rcases hr.2 with hshows | hshows
  · exact ⟨_, hshows, registry_other hn ha⟩
  · exact ⟨_, hshows, (registry_other hn ha).trans (registry_apart_other hn ha)⟩

/-- **What `def-predicate!` says about a predicate** is refused only while the layer's own
    predicates are not registered, and settles. -/
theorem Shows.asserts {pn : String} (hres : Reserved pn)
    (hn : pn ≠ predicateNamePredicate) (ha : pn ≠ predicateAliasPredicate)
    (sb v : String) :
    Gives (assertValue K H st (text sb) pn (text v)) s fun r s' =>
      (ReadyFacts fs → ∃ oc, r = .ok oc) ∧
        ∀ oc, r = .ok oc → ∃ facts', Settles K H fs s' facts' := by
  unfold assertValue
  refine Gives.bind h.stands (lasting_register _) (fun _ => lasting_write _ _ _ _)
    (h.registers hs pn) ?_ ?_
  · rintro e s' (⟨fd, -, -, hf⟩ | ⟨p, facts', hr, -⟩)
    · exact ⟨fun hrea => absurd (hrea pn hres) (hf pn), nofun⟩
    · exact nomatch hr
  · rintro pid s' (⟨fd, hr, -⟩ | ⟨p, facts', hr, hset, hsp, -⟩)
    · exact nomatch hr
    · obtain rfl := Except.ok.inj hr
      obtain rfl := hset.sound.kept hres hsp
      refine (hset.shows.writes_other hset.sound hn ha sb p v).mono ?_
      rintro r s'' ⟨hok, fs'', hsh, hre⟩
      refine ⟨fun _ => hok, fun _ _ => ⟨fs'', hsh, ?_, ?_⟩⟩
      · rw [SoundFacts, hre]
        exact hset.sound
      · rw [Follows, hre]
        exact hset.follows

end

end Beagle.Store.Schema
