/-
A predicate keeps its identity.

Setting up registers the predicates that the layer itself writes under.  From then on
every call refuses before its first commit or settles: the registry is sound afterwards
and has lost nothing.  A rename passes through one state in which the new name is there
and its default alias is not, and nobody else goes by either.
-/
import Beagle.Proofs.PredicateCalls

namespace Beagle.Store.Schema

open Beagle.Lib

section

variable {K : KeyHashing} {H : Hashing} {str : Term → String} {s : Session} {facts : List Fact}

/-! ### Aliases -/

variable (h : Shows K H s facts)
include h

theorem Shows.adds (p an : String) : Gives (addAlias K H (text p) an) s fun r s' => r = .ok () ∧
      Shows K H s' (facts ++ [⟨p, predicateAliasPredicate, an⟩]) := by
  refine Gives.sized h.stands (lasting_addAlias _ _) fun hsz => ?_
  let a : List Fact := [⟨p, predicateAliasPredicate, an⟩]
  have hb : (do
      let builder ← openBuilder s.root
      asserting builder ⟨text p, text predicateAliasPredicate, text an⟩) =
        .ok (Fresh s (a.map fun f => assertOperation f.triple)) := by
    rw [h.stands.opened]
    exact h.stands.asserted hsz [] _
  unfold addAlias
  exact Gives.step (ask_ok hb) (h.commit_asserts (List.cons_ne_nil _ _ : a ≠ []))

/-- An alias is refused at once, or settles. -/
theorem Shows.aliases (hs : SoundFacts facts) (hready : ReadyFacts facts)
    (spelling aliasName : String) :
    Gives (aliasPredicate K H str spelling aliasName) s fun r s' =>
      (∃ found, r = .error (.collision found) ∧ s' = s) ∨
      ∃ p facts', r = .ok (text p) ∧ Settles K H facts s' facts' := by
  obtain ⟨resolved, hres⟩ : ∃ resolved, resolvePredicate K spelling s = some (.ok resolved, s) := by
    rcases h.resolve_cases hs spelling with ⟨-, hrun⟩ | ⟨p, -, hrun⟩
    · exact ⟨_, hrun⟩
    · exact ⟨_, hrun⟩
  unfold aliasPredicate
  refine Gives.step hres (Gives.step (a := s) rfl ?_)
  dsimp only
  cases htaken : taken resolved (predicateIds K s aliasName) with
  | true => exact Gives.of_run rfl (Or.inl ⟨_, rfl, rfl⟩)
  | false =>
    rw [if_neg Bool.false_ne_true]
    refine Gives.bind h.stands (lasting_register _) (fun pid => ?_) (h.registers hs spelling) ?_ ?_
    · refine lasting_get.bind fun s' => ?_
      split
      · exact (lasting_addAlias _ _).bind fun _ => lasting_pure _
      · exact lasting_pure _
    · rintro e s' (⟨found, hr, hsame, -⟩ | ⟨p, facts', hr, -⟩)
      · exact Or.inl ⟨found, hr, hsame⟩
      · exact nomatch hr
    · rintro pid s' (⟨found, hr, -⟩ | ⟨p, facts', hr, hset, hspell, -⟩)
      · exact nomatch hr
      obtain rfl := Except.ok.inj hr
      refine Gives.step (a := s') rfl ?_
      by_cases hhas : ∃ q, (registry facts').Spells q aliasName
      · obtain ⟨q, hq⟩ := hhas
        rw [hset.shows.ids_only hq (hset.sound.only hq)]
        exact Gives.pure (Or.inr ⟨p, facts', rfl, hset⟩)
      · have hfree : (registry facts').Free aliasName := fun q hq => hhas ⟨q, hq⟩
        rw [hset.shows.ids_free hfree]
        refine Gives.bind hset.shows.stands (lasting_addAlias _ _) (fun _ => lasting_pure _)
          (hset.shows.adds p aliasName) (fun e s'' he => nomatch he.1) fun _ s'' hadds => ?_
        refine Gives.pure (Or.inr ⟨p, _, rfl, hadds.2, ?_, ?_⟩)
        · rw [SoundFacts, registry_alias]
          exact hset.sound.addAlias (hready.grows hset.follows) hspell (hfree.only p)
        · rw [Follows, registry_alias]
          exact hset.follows.trans Registry.grows_addAlias

variable {p oln : String} {s' : Session}

/-- The default alias of a new name, where nobody else goes by either of them. -/
theorem Shows.marks {n : String} (hn : (registry facts).lastName p = some n)
    (ho : (registry facts).Only p n) (hm : (registry facts).Only p (marked n)) :
    Gives (aliasPredicate K H str n (marked n)) s fun r s' => r = .ok (text p) ∧
      ((registry facts).Spells p (marked n) ∧ s' = s ∨
        Shows K H s' (facts ++ [⟨p, predicateAliasPredicate, marked n⟩])) := by
  have hs := Registry.spells_of_lastName hn
  have hf : taken (some (text p)) (predicateIds K s (marked n)) = false := by
    by_cases hhas : (registry facts).Spells p (marked n)
    · rw [h.ids_only hhas hm]
      exact taken_own p
    · rw [h.ids_free fun q hq => hhas (hm q hq ▸ hq)]
      rfl
  unfold aliasPredicate
  refine Gives.step (h.resolve_only hs ho) (Gives.step (a := s) rfl ?_)
  dsimp only
  rw [hf, if_neg Bool.false_ne_true]
  refine Gives.bind h.stands (lasting_register _) (fun pid => ?_)
    (h.register_known hs ho hn hm) (fun e s' he => nomatch he.1) ?_
  · refine lasting_get.bind fun s' => ?_
    split
    · exact (lasting_addAlias _ _).bind fun _ => lasting_pure _
    · exact lasting_pure _
  rintro pid s' ⟨hr, -, hshows⟩
  obtain rfl := Except.ok.inj hr
  refine Gives.step (a := s') rfl ?_
  -- By now the predicate goes by the default alias, and nothing is left to do.
  have hids : predicateIds K s' (marked n) = [text p] := by
    rcases hshows with ⟨hhas, rfl⟩ | hshows
    · exact h.ids_only hhas hm
    · refine hshows.ids_only ?_ ?_
      · rw [registry_alias]
        exact Registry.spells_addAlias.mpr (Or.inr ⟨rfl, rfl⟩)
      · intro q hq
        rw [registry_alias] at hq
        rcases Registry.spells_addAlias.mp hq with hq | ⟨hq, -⟩
        · exact hm q hq
        · exact hq
  rw [hids]
  exact Gives.pure ⟨rfl, hshows⟩

/-! ### Renaming -/

/-- The old name is an alias afterwards. -/
theorem Shows.keepsOldName (hs : SoundFacts facts) (hre : ReadyFacts facts)
    (hna : (registry facts).lastName p = some oln) :
    Gives (keepOldName K H (text p) oln) s fun r s' => r = .ok () ∧
      ∃ fs', Settles K H facts s' fs' ∧ (registry fs').lastName p = some oln ∧
        (registry fs').aliases p oln ∧
        ∀ q other, (registry fs').Spells q other → (registry facts).Spells q other := by
  have hsp := Registry.spells_of_lastName hna
  unfold keepOldName
  refine Gives.step (a := s) rfl ?_
  rw [h.ids_only hsp (hs.only hsp)]
  dsimp only
  by_cases ha : (registry facts).aliases p oln
  · have hn : (s.view.byT23 K (text predicateAliasPredicate) (text oln)).isEmpty = false := by
      have hmem := (mem_subjects_byT23 h).mpr ⟨p, rfl, ha⟩
      rw [List.isEmpty_eq_false_iff]
      intro hnil
      rw [hnil] at hmem
      exact absurd hmem List.not_mem_nil
    rw [hn, Bool.and_false, if_neg Bool.false_ne_true]
    exact Gives.pure ⟨rfl, facts, ⟨h, hs, Registry.Grows.refl _⟩, hna, ha, fun _ _ hq => hq⟩
  · have hemp : (s.view.byT23 K (text predicateAliasPredicate) (text oln)).isEmpty = true := by
      by_contra hne
      rw [List.isEmpty_iff] at hne
      obtain ⟨e, hev⟩ := List.exists_mem_of_ne_nil _ hne
      have hmem : e.proposition.t1 ∈ subjects _ := List.mem_map_of_mem hev
      obtain ⟨q, -, hq⟩ := (mem_subjects_byT23 h).mp hmem
      have hq : (registry facts).aliases q oln := hq
      rw [hs.unique (Or.inr hq) hsp] at hq
      exact ha hq
    rw [hemp, text_same, decide_eq_true rfl, Bool.and_self, if_pos rfl]
    refine (h.adds p oln).mono fun r s' hr => ⟨hr.1, _, ⟨hr.2, ?_, ?_⟩, ?_, ?_, ?_⟩
    · rw [SoundFacts, registry_alias]
      exact hs.addAlias hre hsp (hs.only hsp)
    · rw [Follows, registry_alias]
      exact Registry.grows_addAlias
    · rw [registry_alias]
      exact hna
    · rw [registry_alias]
      exact Or.inr ⟨rfl, rfl⟩
    · intro q other hq
      rw [registry_alias] at hq
      rcases Registry.spells_addAlias.mp hq with hq | ⟨rfl, rfl⟩
      · exact hq
      · exact hsp

/-- The new name and its default alias, once the old name is an alias. -/
theorem Shows.renamesTo (hs : SoundFacts facts) (hre : ReadyFacts facts) {newName : String}
    (hna : (registry facts).lastName p = some oln)
    (ha : (registry facts).aliases p oln) (hon : (registry facts).Only p newName)
    (hm : (registry facts).Only p (marked newName)) :
    Gives (do
      let _ ← assertValue K H str (text p) predicateNamePredicate (text newName)
      let _ ← aliasPredicate K H str newName (marked newName)
      pure (text p)) s fun r s' => r = .ok (text p) ∧ ∃ fs', Settles K H facts s' fs' ∧
          (registry fs').Spells p newName ∧ (registry fs').Spells p (marked newName) := by
  have hme : (registry facts).Spells predicateNamePredicate predicateNamePredicate :=
    hre _ (Or.inr (Or.inr rfl))
  have hw : Gives (assertValue K H str (text p) predicateNamePredicate (text newName)) s
      fun r s' => (∃ oc, r = .ok oc) ∧ ∃ fs', Shows K H s' fs' ∧
        (registry fs' = (registry facts).addName p newName ∨
          registry fs' = (registry facts).setName p newName) := by
    unfold assertValue
    refine Gives.bind h.stands (lasting_register _) (fun _ => lasting_write _ _ _ _)
      (h.register_again hs hme) (fun e s' he => nomatch he.1) ?_
    rintro pid s' ⟨hr, rfl⟩
    obtain rfl := Except.ok.inj hr
    refine (h.writes hs p predicateNamePredicate _ newName).mono fun r s' hr => ⟨hr.1, ?_⟩
    rcases hr.2 with hshows | hshows
    · exact ⟨_, hshows, Or.inl (registry_name p newName)⟩
    · exact ⟨_, hshows, Or.inr (registry_rename p newName)⟩
  refine Gives.bind h.stands (lasting_assert _ _ _) (fun _ => ?_) hw ?_ ?_
  · exact (lasting_alias _ _).bind fun _ => lasting_pure _
  · rintro e s' ⟨⟨oc, hr⟩, -⟩
    exact nomatch hr
  rintro oc s' ⟨-, fs₁, hshows, hn⟩
  have hs₁ : ∀ {q other}, (registry fs₁).Spells q other ↔
      (registry facts).Spells q other ∨ q = p ∧ other = newName :=
    Registry.spells_named (hs.aliased hna ha) hn
  have ho₁ : ∀ {other}, (registry facts).Only p other → (registry fs₁).Only p other := by
    intro other ho q hq
    rcases hs₁.mp hq with hq | ⟨hq, -⟩
    · exact ho q hq
    · exact hq
  refine Gives.bind hshows.stands (lasting_alias _ _) (fun _ => lasting_pure _)
    (hshows.marks (Registry.lastName_named hn) (ho₁ hon) (ho₁ hm))
    (fun e s'' he => nomatch he.1) ?_
  rintro pid s'' ⟨-, hshows'⟩
  obtain ⟨fs₂, hs₂, hma⟩ : ∃ fs₂, Shows K H s'' fs₂ ∧
      (registry fs₂ = registry fs₁ ∧ (registry fs₁).Spells p (marked newName) ∨
        registry fs₂ = (registry fs₁).addAlias p (marked newName)) := by
    rcases hshows' with ⟨hhas, rfl⟩ | hshows'
    · exact ⟨fs₁, hshows, Or.inl ⟨rfl, hhas⟩⟩
    · exact ⟨_, hshows', Or.inr (registry_alias p (marked newName))⟩
  have hren := hs.renames hna ha hn hma
  refine Gives.pure ⟨rfl, fs₂, ⟨hs₂, ?_, hren.grows⟩, ?_, ?_⟩
  · exact hs.renamed hre marked_not_reserved hna ha hon hm hren
  · exact hren.spells.mpr (Or.inr ⟨rfl, Or.inl rfl⟩)
  · exact hren.spells.mpr (Or.inr ⟨rfl, Or.inr rfl⟩)

/-- **A rename refuses at once, or settles with the old and the new spellings.** -/
theorem Shows.renames (hs : SoundFacts facts) (hre : ReadyFacts facts) (spelling nn : String) :
    Gives (renamePredicate K H str spelling nn) s fun r s' =>
      (∃ fd, r = .error (.collision fd) ∧ s' = s) ∨
      ∃ p fs', r = .ok (text p) ∧ Settles K H facts s' fs' ∧
        (registry fs').Spells p spelling ∧ (registry fs').Spells p nn ∧
        (registry fs').Spells p (marked nn) ∧
        (registry fs').Spells p (Schema.predicateName K str s (text p)) := by
  obtain ⟨rd, hres, hc⟩ : ∃ rd, resolvePredicate K spelling s = some (.ok rd, s) ∧
        ∀ q, rd = some (text q) → (registry facts).Spells q spelling := by
    rcases h.resolve_cases hs spelling with ⟨-, hrun⟩ | ⟨p, hp, hrun⟩
    · exact ⟨_, hrun, nofun⟩
    · refine ⟨_, hrun, fun q hq => ?_⟩
      rw [← text_injective (Option.some.inj hq)]
      exact hp
  unfold renamePredicate
  refine Gives.step hres (Gives.step (a := s) rfl ?_)
  dsimp only
  cases ht : taken rd (predicateIds K s nn) with
  | true => exact Gives.of_run rfl (Or.inl ⟨_, rfl, rfl⟩)
  | false =>
  rw [if_neg Bool.false_ne_true]
  cases ht' : taken rd (predicateIds K s (":" ++ nn)) with
  | true => exact Gives.of_run rfl (Or.inl ⟨_, rfl, rfl⟩)
  | false =>
  rw [if_neg Bool.false_ne_true]
  refine Gives.bind h.stands (lasting_register _) (fun pid => ?_) (h.registers hs spelling) ?_ ?_
  · refine lasting_get.bind fun s' => ?_
    split
    · exact lasting_pure _
    · refine (lasting_keepOldName _ _).bind fun _ => (lasting_assert _ _ _).bind fun _ => ?_
      exact (lasting_alias _ _).bind fun _ => lasting_pure _
  · rintro e s' (⟨fd, hr, hsa, -⟩ | ⟨p, fs', hr, -⟩)
    · exact Or.inl ⟨fd, hr, hsa⟩
    · exact nomatch hr
  rintro pid s' (⟨fd, hr, -⟩ | ⟨p, fs₁, hr, hset, hsp, hos, hn⟩)
  · exact nomatch hr
  obtain rfl := Except.ok.inj hr
  -- Whoever goes by a spelling that is not taken is the predicate that was registered.
  have hon : ∀ {other}, taken rd (predicateIds K s other) = false →
      (registry fs₁).Only p other := by
    intro other ho q hq
    rcases hos q other hq with hq | hq
    · exact hset.sound.unique (hset.follows _ _ (hc q (h.of_not_taken hs ho hq))) hsp
    · exact hq
  have hcur := hset.shows.predicateName str hn
  refine Gives.step (a := s') rfl ?_
  rw [hcur]
  by_cases hsa : Schema.predicateName K str s (text p) = nn
  · rw [if_pos hsa]
    have hold := Registry.spells_of_lastName hn
    rw [hsa] at hn
    exact Gives.pure (Or.inr ⟨p, fs₁, rfl, hset, hsp, Registry.spells_of_lastName hn,
      hset.sound.marked hn, hold⟩)
  · rw [if_neg hsa]
    have hr₁ := hre.grows hset.follows
    refine Gives.bind hset.shows.stands (lasting_keepOldName _ _) (fun _ => ?_)
      (hset.shows.keepsOldName hset.sound hr₁ hn) (fun e s'' he => nomatch he.1) ?_
    · exact (lasting_assert _ _ _).bind fun _ => (lasting_alias _ _).bind fun _ => lasting_pure _
    rintro - s'' ⟨-, fs₂, hk, hn₂, ha, hb⟩
    have ho₂ : ∀ {other}, taken rd (predicateIds K s other) = false → (registry fs₂).Only p other :=
      fun ho q hq => hon ho q (hb q _ hq)
    refine (hk.shows.renamesTo hk.sound (hr₁.grows hk.follows) hn₂ ha (ho₂ ht) (ho₂ ht')).mono ?_
    rintro r s₃ ⟨rfl, fs₃, hren, hnew, hm⟩
    refine Or.inr ⟨p, fs₃, rfl, ⟨hren.shows, hren.sound, ?_⟩, ?_, hnew, hm, ?_⟩
    · exact (hset.follows.trans hk.follows).trans hren.follows
    · exact hren.follows _ _ (hk.follows _ _ hsp)
    · exact hren.follows _ _ (hk.follows _ _ (Registry.spells_of_lastName hn))

/-! ### Definitions and setting up -/

/-- **A definition settles with its spelling**, and once the layer is set up it refuses at once. -/
theorem Shows.defines (hs : SoundFacts facts) (pname c k : String) :
    Gives (defPredicate K H str pname c k) s fun r s' =>
      (ReadyFacts facts → (∃ fd, r = .error (.collision fd) ∧ s' = s) ∨ ∃ pid, r = .ok pid) ∧
      ∀ pid, r = .ok pid → ∃ p fs', pid = text p ∧ Settles K H facts s' fs' ∧
        (registry fs').Spells p pname := by
  have hc : cardinalityPredicate ≠ predicateNamePredicate ∧
      cardinalityPredicate ≠ predicateAliasPredicate := by decide
  have hk : valueKindPredicate ≠ predicateNamePredicate ∧
      valueKindPredicate ≠ predicateAliasPredicate := by decide
  unfold defPredicate
  refine Gives.bind h.stands (lasting_register _) (fun pid => ?_) (h.registers hs pname) ?_ ?_
  · exact (lasting_assert _ _ _).bind fun _ => (lasting_assert _ _ _).bind fun _ => lasting_pure _
  · rintro e s' (⟨fd, hr, hsa, -⟩ | ⟨p, fs', hr, -⟩)
    · exact ⟨fun _ => Or.inl ⟨fd, hr, hsa⟩, nofun⟩
    · exact nomatch hr
  rintro pid s' (⟨fd, hr, -⟩ | ⟨p, fs₁, hr, hset, hsp, -⟩)
  · exact nomatch hr
  obtain rfl := Except.ok.inj hr
  refine Gives.bind hset.shows.stands (lasting_assert _ _ _) (fun _ => ?_)
    (hset.shows.asserts hset.sound (Or.inl rfl) hc.1 hc.2 p c) ?_ ?_
  · exact (lasting_assert _ _ _).bind fun _ => lasting_pure _
  · rintro e s'' ⟨hre, -⟩
    refine ⟨fun hf => ?_, nofun⟩
    obtain ⟨oc, hr⟩ := hre (hf.grows hset.follows)
    exact nomatch hr
  rintro oc s'' ⟨-, hw⟩
  obtain ⟨fs₂, hs₂⟩ := hw oc rfl
  refine Gives.bind hs₂.shows.stands (lasting_assert _ _ _) (fun _ => lasting_pure _)
    (hs₂.shows.asserts hs₂.sound (Or.inr (Or.inl rfl)) hk.1 hk.2 p k) ?_ ?_
  · rintro e s₃ ⟨hre, -⟩
    refine ⟨fun hf => ?_, nofun⟩
    obtain ⟨oc', hr⟩ := hre ((hf.grows hset.follows).grows hs₂.follows)
    exact nomatch hr
  rintro oc' s₃ ⟨-, hw'⟩
  obtain ⟨fs₃, hs₃⟩ := hw' oc' rfl
  have hfol := hs₂.follows.trans hs₃.follows
  refine Gives.pure ⟨fun _ => Or.inr ⟨_, rfl⟩, fun pid hr => ⟨p, fs₃, ?_, ?_, ?_⟩⟩
  · exact (Except.ok.inj hr).symm
  · exact ⟨hs₃.shows, hs₃.sound, hset.follows.trans hfol⟩
  · exact hfol _ _ hsp

omit h

/-- The session shows a sound registry in which the layer's own predicates are registered. -/
def Kept (K : KeyHashing) (H : Hashing) (s : Session) (facts : List Fact) : Prop :=
  Shows K H s facts ∧ SoundFacts facts ∧ ReadyFacts facts

/-- A fresh session shows no facts. -/
theorem shows_fresh {sid : String} {r : Root} {fr : Session}
    (hnew : newTermStore sid = .ok r) (ho : openSession K H r = .ok fr) :
    Shows K H fr [] := by
  obtain ⟨l, hl, hs⟩ := newTermStore_settled (H := H) hnew
  unfold openSession at ho
  obtain ⟨v, hv, rfl⟩ := except_map_ok.mp ho
  obtain ⟨es, ht, -⟩ := project_tracks hl hs hv
  have hn : es = [] := by
    have hops : l.operations = [] := by
      rw [← hl.operations]
      unfold newTermStore newTermStoreSized at hnew
      split at hnew
      · obtain rfl := Except.ok.inj hnew
        rfl
      · exact nomatch hnew
    have hlen : l.operations.length = es.length := ht.occurrences.length_eq
    rw [hops] at hlen
    exact List.eq_nil_of_length_eq_zero hlen.symm
  refine ⟨l, es, hl, hs, ht, ?_⟩
  rw [hn]
  rfl

theorem registry_nil : registry [] = ⟨fun _ => [], fun _ _ => False⟩ := by
  refine Registry.ext rfl (funext fun p => funext fun sp => ?_)
  exact eq_false List.not_mem_nil

/-- One definition of a set-up, and the rest of it. -/
theorem Gives.define_then (h : Shows K H s facts) (hs : SoundFacts facts) {pn c k : String}
    {rs : Attempt Session Thrown Unit} (hre : Lasting H rs) {fs₀ : List Fact}
    {P : Session → List Fact → Prop} (hfol : Follows fs₀ facts)
    (hg : ∀ {s' facts'}, Shows K H s' facts' → SoundFacts facts' → Follows fs₀ facts' →
      (Reserved pn → (registry facts').Spells pn pn) →
        Gives rs s' fun r s'' => r = .ok () → ∃ fs'', P s'' fs'') :
    Gives (defPredicate K H str pn c k >>= fun _ => rs) s
      fun r s' => r = .ok () → ∃ facts', P s' facts' := by
  refine Gives.bind h.stands (lasting_define _ _ _) (fun _ => hre) (h.defines hs pn c k)
    (fun e s' _ hr => nomatch hr) ?_
  rintro pid s' ⟨-, hok⟩
  obtain ⟨p, facts', -, hset, hsp⟩ := hok pid rfl
  refine hg hset.shows hset.sound (hfol.trans hset.follows) fun hres => ?_
  have hp := hset.sound.kept hres hsp
  rw [hp] at hsp
  exact hsp

theorem lasting_setup : Lasting H (setup K H str) := by
  refine (lasting_define _ _ _).bind fun _ => (lasting_define _ _ _).bind fun _ => ?_
  refine (lasting_define _ _ _).bind fun _ => (lasting_define _ _ _).bind fun _ => ?_
  exact (lasting_define _ _ _).bind fun _ => lasting_pure _

/-- **A set-up that returns has registered what the layer writes under.** -/
theorem Shows.sets_up (h : Shows K H s facts) (hs : SoundFacts facts) :
    Gives (setup K H str) s fun r s' => r = .ok () → ∃ facts', Kept K H s' facts' := by
  unfold setup
  have hg := Registry.Grows.refl (registry facts)
  refine Gives.define_then h hs ?_ hg fun {_ facts₁} h₁ hs₁ _ hc => ?_
  · refine (lasting_define _ _ _).bind fun _ => (lasting_define _ _ _).bind fun _ => ?_
    exact (lasting_define _ _ _).bind fun _ => (lasting_define _ _ _).bind fun _ => lasting_pure _
  refine Gives.define_then h₁ hs₁ ?_ (Registry.Grows.refl _) fun {_ facts₂} h₂ hs₂ hf₂ hk => ?_
  · refine (lasting_define _ _ _).bind fun _ => (lasting_define _ _ _).bind fun _ => ?_
    exact (lasting_define _ _ _).bind fun _ => lasting_pure _
  refine Gives.define_then h₂ hs₂ ?_ (Registry.Grows.refl _) fun {_ facts₃} h₃ hs₃ hf₃ _ => ?_
  · exact (lasting_define _ _ _).bind fun _ => (lasting_define _ _ _).bind fun _ => lasting_pure _
  refine Gives.define_then h₃ hs₃ ?_ (Registry.Grows.refl _) fun {_ facts₄} h₄ hs₄ hf₄ hn => ?_
  · exact (lasting_define _ _ _).bind fun _ => lasting_pure _
  refine Gives.define_then h₄ hs₄ (lasting_pure _) (Registry.Grows.refl _)
    fun {_ facts₅} h₅ hs₅ hf₅ _ => ?_
  refine Gives.pure fun _ => ⟨facts₅, h₅, hs₅, ?_⟩
  rintro n (rfl | rfl | rfl)
  · exact hf₅ _ _ (hf₄ _ _ (hf₃ _ _ (hf₂ _ _ (hc (Or.inl rfl)))))
  · exact hf₅ _ _ (hf₄ _ _ (hf₃ _ _ (hk (Or.inr (Or.inl rfl)))))
  · exact hf₅ _ _ (hn (Or.inr (Or.inr rfl)))

/-! ### Runs -/

/-- **A call refuses at once or settles.** -/
theorem Shows.runs (h : Shows K H s facts) (hs : SoundFacts facts) (hre : ReadyFacts facts)
    (c : Call) :
    Gives (c.run K H str) s fun r s' =>
      (∃ fd, r = .error (.collision fd) ∧ s' = s) ∨
      ∃ p facts', r = .ok (text p) ∧ Settles K H facts s' facts' := by
  cases c with
  | register sp =>
    refine (h.registers hs sp).mono ?_
    rintro r s' (⟨fd, hr, hsa, -⟩ | ⟨p, facts', hr, hset, -⟩)
    · exact Or.inl ⟨fd, hr, hsa⟩
    · exact Or.inr ⟨p, facts', hr, hset⟩
  | define pn ca k =>
    refine (h.defines hs pn ca k).mono ?_
    rintro r s' ⟨he, hok⟩
    rcases he hre with href | ⟨pid, hr⟩
    · exact Or.inl href
    · obtain ⟨p, facts', rfl, hset, -⟩ := hok pid hr
      exact Or.inr ⟨p, facts', hr, hset⟩
  | addAlias sp an => exact h.aliases hs hre sp an
  | rename sp nn =>
    refine (h.renames hs hre sp nn).mono ?_
    rintro r s' (href | ⟨p, facts', hr, hset, -⟩)
    · exact Or.inl href
    · exact Or.inr ⟨p, facts', hr, hset⟩

theorem Leads.lasts (h : Leads K H str s s') : Lasts H s s' := by
  induction h with
  | refl => exact Lasts.refl s
  | call _ hc ih => exact ih.trans (lasting_call _ _ _ _ hc)

/-- **Calls keep the registry sound and lose nothing of it.** -/
theorem Leads.kept (h : Leads K H str s s') (hk : Kept K H s facts)
    (hsz : MachineSized s'.root.store) :
    ∃ facts', Kept K H s' facts' ∧ Follows facts facts' := by
  induction h with
  | refl => exact ⟨facts, hk, Registry.Grows.refl _⟩
  | @call m s' call res hl hc ih =>
    have hst := (hl.lasts hk.1.stands).1
    obtain ⟨fs₁, ⟨hs, hso, hr⟩, hfol⟩ :=
      ih ((lasting_call call _ _ _ hc hst).2 hsz)
    rcases hs.runs hso hr call _ _ hc hsz with ⟨-, -, rfl⟩ | ⟨p, facts', -, hset⟩
    · exact ⟨fs₁, ⟨hs, hso, hr⟩, hfol⟩
    · exact ⟨facts', ⟨hset.shows, hset.sound, hr.grows hset.follows⟩, hfol.trans hset.follows⟩

/-- What calls to a session that was set up may rely on. -/
structure KeepsIdentities (K : KeyHashing) (H : Hashing) (str : Term → String) (s : Session) :
    Prop where
  /-- A spelling is never found to collide. -/
  resolves : ∀ spelling, ∃ found, resolvePredicate K spelling s = some (.ok found, s)
  /-- What a spelling stands for it stands for after any calls. -/
  stays : ∀ s', Leads K H str s s' → MachineSized s'.root.store → ∀ spelling pid,
    Resolves K s spelling pid → Resolves K s' spelling pid
  /-- A rename that returns joins the spellings. -/
  renames : ∀ spelling newName pid s', renamePredicate K H str spelling newName s
      = some (.ok pid, s') → MachineSized s'.root.store →
    Resolves K s' spelling pid ∧ Resolves K s' (predicateName K str s pid) pid ∧
      Resolves K s' newName pid ∧ Resolves K s' (":" ++ newName) pid
  /-- A refusal changes nothing. -/
  refuses : ∀ (call : Call) found s', call.run K H str s = some (.error (.collision found), s') →
    MachineSized s'.root.store → s' = s

theorem Kept.keepsIdentities (h : Kept K H s facts) : KeepsIdentities K H str s := by
  obtain ⟨hs, hso, hre⟩ := h
  refine ⟨?_, ?_, ?_, ?_⟩
  · intro sp
    rcases hs.resolve_cases hso sp with ⟨-, hrun⟩ | ⟨p, -, hrun⟩
    · exact ⟨_, hrun⟩
    · exact ⟨_, hrun⟩
  · intro s' hl hsz sp pid hres
    obtain ⟨p, rfl, hp⟩ := (hs.resolves_iff hso).mp hres
    obtain ⟨fs', ⟨hs', hso', -⟩, hfol⟩ :=
      hl.kept ⟨hs, hso, hre⟩ hsz
    exact (hs'.resolves_iff hso').mpr ⟨p, rfl, hfol _ _ hp⟩
  · intro sp nn pid s' hrun hsz
    rcases hs.renames hso hre sp nn _ _ hrun hsz with ⟨fd, hr, -⟩ |
      ⟨p, fs', hr, hset, hspelling, hnew, hmark, hold⟩
    · exact nomatch hr
    · obtain rfl := Except.ok.inj hr
      have hres : ∀ {other}, (registry fs').Spells p other → Resolves K s' other (text p) :=
        fun ho => (hset.shows.resolves_iff hset.sound).mpr ⟨p, rfl, ho⟩
      exact ⟨hres hspelling, hres hold, hres hnew, hres hmark⟩
  · intro c fd s' hrun hsz
    rcases hs.runs hso hre c _ _ hrun hsz with ⟨-, -, hsa⟩ | ⟨p, fs', hr, -⟩
    · exact hsa
    · exact nomatch hr

/-- **After a set-up and any calls, returning or throwing, every spelling stands for one predicate
    at most, and for the same one from then on; a rename joins the old and the new spellings, and
    a refusal changes nothing.** -/
theorem predicates_keep_identities {spaceId : String} {start : Session}
    (hsetup : SetUp K H str spaceId start) (hleads : Leads K H str start s)
    (hsized : MachineSized s.root.store) : KeepsIdentities K H str s := by
  obtain ⟨r, fr, hnew, ho, hrun⟩ := hsetup
  have hs := shows_fresh hnew ho
  have hst := (lasting_setup fr _ _ hrun hs.stands).1
  have hso : SoundFacts [] := by
    rw [SoundFacts, registry_nil]
    exact Registry.Sound.empty
  obtain ⟨facts, hk⟩ := hs.sets_up hso _ _ hrun ((hleads.lasts hst).2 hsized) rfl
  obtain ⟨fs', hk', -⟩ := hleads.kept hk hsized
  exact hk'.keepsIdentities

end

/-- Titles are renamed to headings, in a session that was set up. -/
theorem headings_keep_identity :
    ∃ start s, SetUp KeyHashing.fnv Hashing.fnv (fun _ => "") "s" start ∧
      renamePredicate KeyHashing.fnv Hashing.fnv (fun _ => "") "title" "heading" start
        = some (.ok (text "title"), s) ∧
      KeepsIdentities KeyHashing.fnv Hashing.fnv (fun _ => "") s := by
  have hs : ((newTermStore "s").toOption.bind fun rt =>
      (openSession KeyHashing.fnv Hashing.fnv rt).toOption.bind fun fr =>
        (setup KeyHashing.fnv Hashing.fnv (fun _ => "") fr).bind fun set =>
          (renamePredicate KeyHashing.fnv Hashing.fnv (fun _ => "") "title" "heading" set.2).map
            fun r => (set.1.toOption, r.1.toOption,
              r.2.root.store.nextSequence, r.2.root.store.operations.length))
      = some (some (), some (text "title"), 20, 26) := by
    decide +kernel
  obtain ⟨rt, hro, hs⟩ := Option.bind_eq_some_iff.mp hs
  obtain ⟨fr, hf, hs⟩ := Option.bind_eq_some_iff.mp hs
  obtain ⟨⟨oc, start⟩, hse, hs⟩ := Option.bind_eq_some_iff.mp hs
  obtain ⟨⟨oc', s⟩, hr, hs⟩ := Option.map_eq_some_iff.mp hs
  simp only [Prod.mk.injEq] at hs
  obtain ⟨hok, hok', hn, hlen⟩ := hs
  obtain rfl := toOption_eq_some hok
  obtain rfl := toOption_eq_some hok'
  have hst : SetUp KeyHashing.fnv Hashing.fnv (fun _ => "") "s" start :=
    ⟨rt, fr, toOption_eq_some hro, toOption_eq_some hf, hse⟩
  have hsz : MachineSized s.root.store :=
    ⟨by rw [hn]; decide, by rw [hlen]; decide⟩
  have hrun : (Call.rename "title" "heading").run KeyHashing.fnv Hashing.fnv (fun _ => "") start
      = some (.ok (text "title"), s) := hr
  exact ⟨start, s, hst, hr, predicates_keep_identities hst (Leads.refl.call hrun) hsz⟩

end Beagle.Store.Schema
