/-
What a session of the schema layer shows.

All that the schema layer writes about a predicate has three texts.  A session shows
these facts when they are what stands in its store, in their order, and when its view has
folded everything.  The reads of the layer are read off the facts, a commit of assertions
puts facts behind them, and the update of a single value puts one in the place of those
under its pair.

What the commits of a session do to its facts.

A program of the schema layer ends early in a trap, or keeps what it has committed.  What
it does is told for the sessions whose store has machine-sized counts; a store only grows,
so then the stores before it had them too, and neither a commit nor a refresh throws.
-/
import Beagle.Lib.Spellings
import Beagle.Proofs.SingleUpdates
import Beagle.Store.Schema

namespace Beagle.Store.Schema

open Beagle.Lib List

/-! ### Facts -/

/-- A proposition of three texts. -/
structure Fact where
  subject : String
  predicate : String
  value : String
deriving DecidableEq

def Fact.triple (fact : Fact) : Triple := ⟨text fact.subject, text fact.predicate, text fact.value⟩

def Fact.under (subject predicate : String) (fact : Fact) : Bool :=
  fact.subject = subject && fact.predicate = predicate

/-- The spellings that some facts give the predicates. -/
def registry (facts : List Fact) : Registry String where
  names p := (facts.filter (Fact.under p predicateNamePredicate)).map Fact.value
  aliases p spelling := ⟨p, predicateAliasPredicate, spelling⟩ ∈ facts

theorem text_same (a b : String) : (text a).same (text b) = decide (a = b) := by
  show (AtomValue.string a == AtomValue.string b) = _
  rw [Bool.eq_iff_iff, beq_iff_eq, decide_eq_true_iff, AtomValue.string.injEq]

theorem text_injective {a b : String} (h : text a = text b) : a = b := by
  injection h with h
  injection h

/-- A proposition that agrees with three texts is these texts. -/
theorem Fact.eq_triple {fc : Fact} {pr : Triple}
    (h : pr.term.agrees fc.triple.term) : pr = fc.triple := by
  have hs : ∀ {t : Term} {spelling : String}, t.agrees (text spelling) → t = text spelling := by
    intro t spelling h
    cases t with
    | triple => exact absurd h id
    | atom v =>
      rcases h with h | h
      · exact congrArg Term.atom h
      · cases v with
        | string o => exact congrArg Term.atom (beq_iff_eq.mp h)
        | _ => exact nomatch h
  obtain ⟨t1, t2, t3⟩ := pr
  obtain ⟨h1, h2, h3⟩ := h
  obtain rfl := hs h1
  obtain rfl := hs h2
  obtain rfl := hs h3
  rfl

/-! ### Sessions -/

section

variable {K : KeyHashing} {H : Hashing} {s : Session} {fs : List Fact}

/-- The facts are what stands in the store of the session, and its view is pinned. -/
def Shows (K : KeyHashing) (H : Hashing) (s : Session) (facts : List Fact) : Prop :=
  ∃ l events, Holds H s.root l ∧ l.Settled ∧ Tracks K l s.view l.history [] events ∧
    (standing [] events).map (·.proposition) = facts.map Fact.triple

theorem Shows.matching (h : Shows K H s fs) (t1 t2 t3 : Option Term) :
    (s.view.matching K t1 t2 t3).map (·.proposition) =
      (fs.filter fun fc => patternMatch fc.triple t1 t2 t3).map Fact.triple := by
  obtain ⟨l, es, -, -, ht, hf⟩ := h
  rw [Rotation.matching_eq ht.indexes, ht.stands]
  have hl := filter_map (p := fun pr => patternMatch pr t1 t2 t3)
    (f := OperationOccurrence.proposition) (l := standing [] es)
  have hr := filter_map (p := fun pr => patternMatch pr t1 t2 t3) (f := Fact.triple) (l := fs)
  exact hl.symm.trans ((congrArg _ hf).trans hr)

theorem Shows.byT12 (h : Shows K H s fs) (sb pd : String) :
    (s.view.byT12 K (text sb) (text pd)).map (·.proposition) =
      (fs.filter (Fact.under sb pd)).map Fact.triple := by
  refine (h.matching (some (text sb)) (some (text pd)) none).trans ?_
  refine congrArg _ (filter_congr fun fc _ => ?_)
  show ((text sb).same _ && ((text pd).same _ && true)) = _
  unfold Fact.triple Fact.under
  rw [text_same, text_same, Bool.and_true]
  simp only [eq_comm]

variable {pi : Term}

theorem mem_subjects_byT23 (h : Shows K H s fs) {pd value : String} :
    pi ∈ subjects (s.view.byT23 K (text pd) (text value)) ↔
      ∃ p, pi = text p ∧ ⟨p, pd, value⟩ ∈ fs := by
  have hr := h.matching none (some (text pd)) (some (text value))
  have hs : subjects (s.view.byT23 K (text pd) (text value)) =
      ((fs.filter fun fc => patternMatch fc.triple none (some (text pd))
        (some (text value))).map Fact.triple).map Triple.t1 := by
    rw [← hr, map_map]
    rfl
  rw [hs, map_map, mem_map]
  have hmat : ∀ fc : Fact, patternMatch fc.triple none (some (text pd))
      (some (text value)) = true ↔ fc.predicate = pd ∧ fc.value = value := by
    intro fc
    show (true && ((text pd).same (text fc.predicate) &&
      (text value).same (text fc.value))) = true ↔ _
    rw [text_same, text_same, Bool.true_and, Bool.and_eq_true, decide_eq_true_iff,
      decide_eq_true_iff, eq_comm, @eq_comm _ value]
  constructor
  · rintro ⟨fc, hf, rfl⟩
    obtain ⟨hmem, hf⟩ := mem_filter.mp hf
    obtain ⟨rfl, rfl⟩ := (hmat fc).mp hf
    exact ⟨fc.subject, rfl, hmem⟩
  · rintro ⟨p, rfl, hmem⟩
    exact ⟨_, mem_filter.mpr ⟨hmem, (hmat _).mpr ⟨rfl, rfl⟩⟩, rfl⟩

/-! ### Reading spellings -/

variable {p : String}

theorem mem_names {n : String} :
    n ∈ (registry fs).names p ↔ ⟨p, predicateNamePredicate, n⟩ ∈ fs := by
  show n ∈ (fs.filter _).map _ ↔ _
  rw [mem_map]
  constructor
  · rintro ⟨fc, hf, rfl⟩
    obtain ⟨hmem, hu⟩ := mem_filter.mp hf
    unfold Fact.under at hu
    rw [Bool.and_eq_true, decide_eq_true_iff, decide_eq_true_iff] at hu
    obtain ⟨rfl, hp⟩ := hu
    rw [← hp]
    exact hmem
  · intro hmem
    refine ⟨_, mem_filter.mpr ⟨hmem, ?_⟩, rfl⟩
    unfold Fact.under
    rw [Bool.and_eq_true, decide_eq_true_iff, decide_eq_true_iff]
    exact ⟨rfl, rfl⟩

/-- The Terms that a spelling leads to are those that go by it. -/
theorem mem_spelled (h : Shows K H s fs) {spelling : String} :
    pi ∈ subjects (s.view.byT23 K (text predicateNamePredicate) (text spelling)) ++
        subjects (s.view.byT23 K (text predicateAliasPredicate) (text spelling)) ↔
      ∃ p, pi = text p ∧ (registry fs).Spells p spelling := by
  rw [List.mem_append, mem_subjects_byT23 h, mem_subjects_byT23 h, ← exists_or]
  refine exists_congr fun p => ?_
  unfold Registry.Spells
  rw [mem_names, ← and_or_left]
  rfl

theorem distinct_of_all {ts : List Term} {t : Term} (hs : t.same t = true)
    (hmem : t ∈ ts) (hall : ∀ o ∈ ts, o = t) : distinct ts = [t] := by
  induction ts with
  | nil => exact absurd hmem not_mem_nil
  | cons first r ih =>
    obtain rfl := hall first mem_cons_self
    unfold distinct
    by_cases hr : first ∈ r
    · rw [ih hr fun o ho => hall o (mem_cons_of_mem _ ho)]
      rw [filter_cons_of_neg (by rw [hs]; exact nofun)]
      rfl
    · have hnil : r = [] := by
        refine eq_nil_iff_forall_not_mem.mpr fun o ho => hr ?_
        rw [← hall o (mem_cons_of_mem _ ho)]
        exact ho
      rw [hnil]
      rfl

variable (h : Shows K H s fs)
include h

theorem Shows.ids_free {sp : String} (hf : (registry fs).Free sp) : predicateIds K s sp = [] := by
  have hnil : subjects (s.view.byT23 K (text predicateNamePredicate) (text sp)) ++
      subjects (s.view.byT23 K (text predicateAliasPredicate) (text sp)) = [] := by
    refine eq_nil_iff_forall_not_mem.mpr fun pi hpid => ?_
    obtain ⟨p, -, hp⟩ := (mem_spelled h).mp hpid
    exact hf p hp
  unfold predicateIds
  rw [hnil]
  rfl

theorem Shows.ids_only {sp : String} (hs : (registry fs).Spells p sp)
    (hon : (registry fs).Only p sp) : predicateIds K s sp = [text p] := by
  refine distinct_of_all (by rw [text_same, decide_eq_true rfl])
    ((mem_spelled h).mpr ⟨p, rfl, hs⟩) fun o ho => ?_
  obtain ⟨q, rfl, hq⟩ := (mem_spelled h).mp ho
  rw [hon q hq]

theorem Shows.named_iff (p : String) :
    (s.view.byT12 K (text p) (text predicateNamePredicate)).isEmpty = false ↔
      ∃ name, (registry fs).lastName p = some name := by
  have hr := congrArg List.length (h.byT12 p predicateNamePredicate)
  rw [length_map, length_map] at hr
  have hl : (∃ name, (registry fs).lastName p = some name) ↔ (registry fs).names p ≠ [] := by
    unfold Registry.lastName
    rw [← Option.isSome_iff_exists, getLast?_isSome]
  rw [hl, ← length_pos_iff, isEmpty_eq_false_iff, ← length_pos_iff, hr]
  show _ ↔ 0 < ((fs.filter _).map _).length
  rw [length_map]

theorem Shows.predicateName (str : Term → String) {p name : String}
    (hn : (registry fs).lastName p = some name) : predicateName K str s (text p) = name := by
  have hr := h.byT12 p predicateNamePredicate
  have hl := congrArg getLast? hr
  rw [getLast?_map, getLast?_map] at hl
  unfold Registry.lastName at hn
  replace hn : ((fs.filter (Fact.under p predicateNamePredicate)).map Fact.value).getLast?
    = some name := hn
  rw [getLast?_map] at hn
  obtain ⟨fc, hf, rfl⟩ := Option.map_eq_some_iff.mp hn
  rw [hf] at hl
  obtain ⟨e, hev, hp⟩ := Option.map_eq_some_iff.mp hl
  unfold Schema.predicateName
  rw [hev]
  dsimp only
  rw [hp]
  rfl

theorem Shows.predicateName_unnamed (str : Term → String)
    (hn : (registry fs).lastName p = none) : Schema.predicateName K str s (text p) = p := by
  have hemp : (s.view.byT12 K (text p) (text predicateNamePredicate)).isEmpty = true := by
    by_contra hne
    rw [Bool.not_eq_true, h.named_iff, hn] at hne
    exact nomatch hne
  unfold Schema.predicateName
  rw [List.isEmpty_iff.mp hemp]
  rfl

end

/-! ### What a write does to the spellings -/

section

variable {fs : List Fact}

theorem names_registry (fs : List Fact) (p : String) : (registry fs).names p =
    (fs.filter (Fact.under p predicateNamePredicate)).map Fact.value := rfl

theorem aliases_registry (fs : List Fact) (p sp : String) :
    (registry fs).aliases p sp = (⟨p, predicateAliasPredicate, sp⟩ ∈ fs) := rfl

theorem registry_append (fs a : List Fact) : registry (fs ++ a) =
    ⟨fun p => (registry fs).names p ++ (registry a).names p,
      fun p sp => (registry fs).aliases p sp ∨ (registry a).aliases p sp⟩ := by
  unfold registry
  simp only [filter_append, map_append, List.mem_append]

theorem aliased_ne_named : predicateAliasPredicate ≠ predicateNamePredicate := by decide

theorem registry_name (p name : String) :
    registry (fs ++ [⟨p, predicateNamePredicate, name⟩]) = (registry fs).addName p name := by
  rw [registry_append]
  refine Registry.ext (funext fun q => ?_) (funext fun q => funext fun sp => ?_)
  · rw [Registry.names_addName]
    show _ ++ (registry _).names q = _
    rw [names_registry [_]]
    by_cases hq : q = p
    · subst hq
      simp [Fact.under]
    · simp [Fact.under, hq, Ne.symm hq]
  · show (_ ∨ (registry _).aliases q sp) = (registry fs).aliases q sp
    rw [aliases_registry [_], eq_false (p := _ ∈ [_]) ?_, or_false]
    intro hmem
    exact aliased_ne_named (congrArg Fact.predicate (mem_singleton.mp hmem))

theorem registry_alias (p spelling : String) :
    registry (fs ++ [⟨p, predicateAliasPredicate, spelling⟩]) =
      (registry fs).addAlias p spelling := by
  rw [registry_append]
  have hn : ∀ q, (registry [⟨p, predicateAliasPredicate, spelling⟩]).names q = [] := by
    intro q
    have := aliased_ne_named
    unfold registry Fact.under
    simp [this]
  refine Registry.ext (funext fun q => ?_) (funext fun q => funext fun o => ?_)
  · show _ ++ (registry _).names q = _
    rw [hn, append_nil]
    rfl
  · show (_ ∨ _ ∈ [_]) = _
    simp [registry, Registry.addAlias]

/-- A fact under another predicate says nothing about spellings. -/
theorem registry_other {fact : Fact} (hname : fact.predicate ≠ predicateNamePredicate)
    (halias : fact.predicate ≠ predicateAliasPredicate) :
    registry (fs ++ [fact]) = registry fs := by
  rw [registry_append]
  have hnone : ∀ q, (registry [fact]).names q = [] := by
    intro q
    unfold registry Fact.under
    simp [hname]
  have hfree : ∀ q other, ¬(registry [fact]).aliases q other := by
    rintro q other h
    rw [← mem_singleton.mp h] at halias
    exact halias rfl
  refine Registry.ext (funext fun q => ?_) (funext fun q => funext fun other => ?_)
  · show _ ++ (registry [fact]).names q = _
    rw [hnone, append_nil]
  · show (_ ∨ (registry [fact]).aliases q other) = _
    rw [eq_false (hfree q other), or_false]

/-- The facts that are not under a pair. -/
def apart (subject predicate : String) (facts : List Fact) : List Fact :=
  facts.filter fun fact => !fact.under subject predicate

/-- Without the facts of a pair under another predicate, the spellings are what they were. -/
theorem registry_apart_other {sb pd : String} (hn : pd ≠ predicateNamePredicate)
    (ha : pd ≠ predicateAliasPredicate) :
    registry (apart sb pd fs) = registry fs := by
  refine Registry.ext (funext fun q => ?_) (funext fun q => funext fun o => ?_)
  · rw [names_registry, names_registry]
    unfold apart
    rw [filter_filter]
    refine congrArg _ (filter_congr fun fc _ => ?_)
    by_cases hf : fc.predicate = predicateNamePredicate
    · simp [Fact.under, hf, Ne.symm hn]
    · simp [Fact.under, hf]
  · rw [aliases_registry, aliases_registry]
    unfold apart
    rw [mem_filter]
    simp [Fact.under, Ne.symm ha]

/-- A name put in the place of those there are. -/
theorem registry_rename (p name : String) :
    registry (apart p predicateNamePredicate fs ++ [⟨p, predicateNamePredicate, name⟩]) =
      (registry fs).setName p name := by
  have hn : registry (apart p predicateNamePredicate fs) =
      { registry fs with
        names := fun q => if q = p then [] else (registry fs).names q } := by
    refine Registry.ext (funext fun q => ?_) (funext fun q => funext fun o => ?_)
    · show _ = if q = p then [] else (registry fs).names q
      rw [names_registry, names_registry]
      unfold apart
      rw [filter_filter]
      by_cases hq : q = p
      · subst hq
        simp [Fact.under]
      · rw [if_neg hq]
        refine congrArg _ (filter_congr fun fc _ => ?_)
        by_cases hf : fc.subject = q
        · simp [Fact.under, hf, hq]
        · simp [Fact.under, hf]
    · show (registry _).aliases q o = (registry fs).aliases q o
      rw [aliases_registry, aliases_registry]
      unfold apart
      rw [mem_filter]
      simp [Fact.under, aliased_ne_named]
  rw [registry_name, hn]
  refine Registry.ext (funext fun q => ?_) rfl
  rw [Registry.names_addName, Registry.names_setName]
  by_cases hq : q = p
  · rw [if_pos hq, if_pos hq]
    simp
  · rw [if_neg hq, if_neg hq]
    exact if_neg hq

end

section

variable {K : KeyHashing} {H : Hashing} {α β : Type} {s : Session}

/-! ### Stores only grow -/

/-- A settled ledger stands behind the store of the session. -/
def Stands (H : Hashing) (s : Session) : Prop := ∃ l, Holds H s.root l ∧ l.Settled

/-- The store still stands, and had machine-sized counts before when it has them now. -/
def Lasts (H : Hashing) (s s' : Session) : Prop :=
  Stands H s → Stands H s' ∧ (MachineSized s'.root.store → MachineSized s.root.store)

theorem Lasts.refl (s : Session) : Lasts H s s := fun h => ⟨h, id⟩

theorem Lasts.trans ⦃s s' s'' : Session⦄ (h : Lasts H s s') (h' : Lasts H s' s'') :
    Lasts H s s'' := by
  intro hs
  obtain ⟨hs', hback⟩ := h hs
  obtain ⟨hs'', hback'⟩ := h' hs'
  exact ⟨hs'', fun hsz => hback (hback' hsz)⟩

/-- The program leaves a store that lasts, however it ends. -/
abbrev Lasting (H : Hashing) (m : Attempt Session Thrown α) : Prop := Attempt.Keeps (Lasts H) m

theorem lasting_pure (a : α) : Lasting H (pure a : Attempt Session Thrown α) :=
  Attempt.Keeps.pure Lasts.refl a

theorem lasting_raise (e : Thrown) : Lasting H (Attempt.raise e : Attempt Session Thrown α) :=
  Attempt.Keeps.raise Lasts.refl e

variable {m : Attempt Session Thrown α} {q : Session → Except Fault α}
  {P : Except Thrown α → Session → Prop} {f : α → Attempt Session Thrown β}

theorem Lasting.bind (hm : Lasting H m) (hf : ∀ a, Lasting H (f a)) : Lasting H (m >>= f) :=
  Attempt.Keeps.bind Lasts.trans hm hf

theorem ask_after (hok : ∀ a, q s = .ok a → P (.ok a) s)
    (ht : ∀ msg, q s = .error (.thrown msg) → P (.error (.fault msg)) s) :
    (ask q).After s P := by
  intro r s' h
  unfold ask at h
  cases hq : q s with
  | ok a =>
    rw [hq] at h
    obtain ⟨rfl, rfl⟩ := Prod.mk.inj (Option.some.inj h)
    exact hok a hq
  | error fa =>
    rw [hq] at h
    cases fa with
    | trap => exact nomatch h
    | thrown msg =>
      obtain ⟨rfl, rfl⟩ := Prod.mk.inj (Option.some.inj h)
      exact ht msg hq

theorem ask_ok {a : α} (h : q s = .ok a) : ask q s = some (.ok a, s) := by
  unfold ask
  rw [h]

theorem ask_trap (h : q s = .error .trap) : ask q s = none := by
  unfold ask
  rw [h]

theorem lasting_ask (q : Session → Except Fault α) : Lasting H (ask q) :=
  fun s => ask_after (fun _ _ => Lasts.refl s) fun _ _ => Lasts.refl s

theorem lasting_get : Lasting H (Attempt.get : Attempt Session Thrown Session) := by
  intro s r s' h
  obtain ⟨rfl, rfl⟩ := Prod.mk.inj (Option.some.inj h)
  exact Lasts.refl s

/-- A store after a commit is that of the ledger after it. -/
theorem lasts_committed {r' : Root} {b : Builder} {c : Triple}
    (hcom : b.commit H s.root = .ok (r', c)) (v : Rotation) :
    Lasts H s ⟨r', v⟩ := by
  rintro ⟨l, hl, hs⟩
  unfold Builder.commit at hcom
  split at hcom
  · exact nomatch hcom
  split at hcom
  · exact nomatch hcom
  obtain ⟨hv, -, hl', -⟩ := commitBoundary_spec hl hs.wf hcom
  refine ⟨⟨_, hl', hs.commit hv (Int.le_refl _)⟩, fun hsz => ?_⟩
  obtain ⟨hn, hlen⟩ := hl'.sizes hsz
  have hn' : (l.commit l.nextSequence b.operations).nextSequence = l.nextSequence + 1 :=
    Ledger.append_nextSequence _ _ _
  obtain ⟨since, hsi⟩ : ∃ since, (l.commit l.nextSequence b.operations).operations
      = l.operations ++ since := ⟨_, Ledger.append_operations _ _ _⟩
  rw [hsi, length_append] at hlen
  refine ⟨?_, ?_⟩
  · rw [hl.nextSequence]
    omega
  · rw [hl.operations]
    omega

theorem lasting_commit (b : Builder) : Lasting H (commit K H b) := by
  intro s
  refine Attempt.After.bind (P := fun r s' => s' = s ∧ ∀ c, r = .ok c → b.commit H s.root = .ok c)
    (ask_after (fun _ h => ⟨rfl, fun _ heq => Except.ok.inj heq ▸ h⟩) fun _ _ => ⟨rfl, nofun⟩)
    (fun _ s' h => by rw [h.1]; exact Lasts.refl s) ?_
  rintro ⟨r', co⟩ s₁ ⟨rfl, hcom⟩
  have hl := lasts_committed (hcom _ rfl)
  refine Attempt.After.bind (P := fun _ s' => s' = ⟨r', s₁.view⟩) ?_
    (fun _ _ h => h ▸ hl s₁.view) ?_
  · intro r s' h
    obtain ⟨-, rfl⟩ := Prod.mk.inj (Option.some.inj h)
    rfl
  rintro - s₂ rfl
  refine Attempt.After.bind (P := fun _ s' => s' = ⟨r', s₁.view⟩)
    (ask_after (fun _ _ => rfl) fun _ _ => rfl) (fun _ _ h => h ▸ hl s₁.view) ?_
  rintro v s₃ rfl r s' h
  obtain ⟨-, rfl⟩ := Prod.mk.inj (Option.some.inj h)
  exact hl v

/-! ### What a program gives where the counts are machine-sized -/

/-- `P` holds of what the program gives, where the store that it leaves is machine-sized. -/
def Gives (m : Attempt Session Thrown α) (s : Session) (P : Except Thrown α → Session → Prop) :
    Prop :=
  m.After s fun r s' => MachineSized s'.root.store → P r s'

theorem Gives.mono {Q : Except Thrown α → Session → Prop} (h : Gives m s P)
    (hpq : ∀ r s', P r s' → Q r s') : Gives m s Q :=
  Attempt.After.mono h fun r s' hp hsz => hpq r s' (hp hsz)

/-- The store before was machine-sized too. -/
theorem Gives.sized (hs : Stands H s) (hm : Lasting H m)
    (h : MachineSized s.root.store → Gives m s P) : Gives m s P :=
  fun r s' hrun hsz => h ((hm s r s' hrun hs).2 hsz) r s' hrun hsz

theorem Gives.pure {a : α} (h : P (.ok a) s) : Gives (Pure.pure a) s P :=
  Attempt.After.pure fun _ => h

theorem Gives.of_run {r : Except Thrown α} (hrun : m s = some (r, s)) (h : P r s) :
    Gives m s P := by
  intro r' s' hrun' _
  rw [hrun] at hrun'
  obtain ⟨rfl, rfl⟩ := Prod.mk.inj (Option.some.inj hrun')
  exact h

/-- Go on after a part that only reads. -/
theorem Gives.step {m : Attempt Session Thrown α} {f : α → Attempt Session Thrown β} {a : α}
    {P : Except Thrown β → Session → Prop} (hrun : m s = some (.ok a, s)) (h : Gives (f a) s P) :
    Gives (m >>= f) s P := by
  intro r s' hb
  rw [Attempt.bind_of_ok hrun] at hb
  exact h r s' hb

theorem Gives.bind {Q : Except Thrown β → Session → Prop} (hs : Stands H s) (hl : Lasting H m)
    (hl' : ∀ a, Lasting H (f a)) (hm : Gives m s P)
    (herr : ∀ e s', P (.error e) s' → Q (.error e) s')
    (hok : ∀ a s', P (.ok a) s' → Gives (f a) s' Q) : Gives (m >>= f) s Q := by
  intro r s'' hrun hsz
  rcases Attempt.bind_cases hrun with ⟨e, hr, rfl⟩ | ⟨a, s', hfst, hsnd⟩
  · exact herr e s'' (hm _ _ hr hsz)
  · have hs' := (hl s _ _ hfst hs).1
    have hsz' := (hl' a s' _ _ hsnd hs').2 hsz
    exact hok a s' (hm _ _ hfst hsz') r s'' hsnd hsz

/-! ### Builders -/

/-- A builder of the next transaction of the session. -/
def Fresh (s : Session) (operations : List CommitOperation) : Builder :=
  ⟨transactionCoordinate s.root.store.spaceId s.root.store.nextSequence, operations⟩

variable {fs : List Fact}

theorem Shows.stands (h : Shows K H s fs) : Stands H s := by
  obtain ⟨l, -, hl, hs, -⟩ := h
  exact ⟨l, hl, hs⟩

theorem Stands.validSpace (h : Stands H s) : validSpaceId s.root.store.spaceId = true := by
  obtain ⟨l, hl, hs⟩ := h
  rw [hl.spaceId]
  exact decide_eq_true hs.wf.space

theorem Stands.opened (h : Stands H s) : openBuilder s.root = .ok (Fresh s []) := by
  refine if_pos ⟨h.validSpace, ?_⟩
  obtain ⟨l, hl, hs⟩ := h
  have := hs.wf.nextSequence_pos
  rw [hl.nextSequence]
  omega

theorem Stands.appended (h : Stands H s) (hsz : MachineSized s.root.store)
    (ops : List CommitOperation) {mo : List CommitOperation} (hm : mo ≠ []) :
    ∃ oc, (Fresh s ops).append mo = .ok (Fresh s (ops ++ mo), oc) := by
  have hc : (transactionCoordinateOf
      (transactionCoordinate s.root.store.spaceId s.root.store.nextSequence).term).isSome = true := by
    have hsp := h.validSpace
    obtain ⟨l, hl, hs⟩ := h
    have hpos := hs.wf.nextSequence_pos
    have hr : (Int64.ofInt s.root.store.nextSequence).toInt = s.root.store.nextSequence := by
      rw [hl.nextSequence]
      exact Int64.toInt_ofInt_of_lt (by omega) (hl.sizes hsz).1
    have hof : transactionCoordinateOf
        (transactionCoordinate s.root.store.spaceId s.root.store.nextSequence).term
          = some (s.root.store.spaceId, Int64.ofInt s.root.store.nextSequence) :=
      if_pos ⟨of_decide_eq_true hsp, rfl, by rw [hr, hl.nextSequence]; omega⟩
    rw [hof]
    rfl
  have hlen := length_pos_iff.mpr hm
  unfold Builder.append Fresh
  rw [if_neg (by rw [List.isEmpty_iff]; exact hm)]
  dsimp only
  rw [if_pos ⟨hc, by omega⟩]
  exact ⟨_, rfl⟩

theorem Stands.asserted (h : Stands H s) (hsz : MachineSized s.root.store)
    (ops : List CommitOperation) (pr : Triple) :
    asserting (Fresh s ops) pr = .ok (Fresh s (ops ++ [assertOperation pr])) := by
  obtain ⟨oc, happ⟩ := h.appended hsz ops (cons_ne_nil (assertOperation pr) [])
  unfold asserting
  rw [happ]
  rfl

/-! ### Commits -/

variable {ops : List CommitOperation}

theorem canonicalValidateCommit_ok (hv : validOperations ops = true) :
    (canonicalValidateCommit ops (commitMetadata "store.txn/v1" "store/CommitOperationV1"
      (some "store-schema-v1"))).isOk = true := by
  unfold canonicalValidateCommit
  rw [hv]
  rfl

/-- A commit of valid operations returns or traps. -/
theorem Stands.commit_cases (h : Stands H s)
    (hv : validOperations ops = true) :
    (Fresh s ops).commit H s.root = .error .trap ∨
      ∃ r' c, (Fresh s ops).commit H s.root = .ok (r', c) ∧
        ∃ me, commitBoundary H s.root ops me = .ok (r', c) := by
  have hcom : (Fresh s ops).commit H s.root = commitBoundary H s.root ops
      (commitMetadata "store.txn/v1" "store/CommitOperationV1" (some "store-schema-v1")) := by
    unfold Builder.commit Fresh transactionCoordinate
    dsimp only
    rw [Term.same_self, Term.same_self]
    rfl
  obtain ⟨l, hl, hs⟩ := h
  rw [hcom]
  by_cases hr : s.root.store.nextSequence = sequenceBound
  · refine Or.inl ?_
    have hva := canonicalValidateCommit_ok hv
    unfold commitBoundary
    cases hm : canonicalValidateCommit ops
        (commitMetadata "store.txn/v1" "store/CommitOperationV1" (some "store-schema-v1")) with
    | error fa =>
      rw [hm] at hva
      exact nomatch hva
    | ok v =>
      show appendTransaction H s.root s.root.store.nextSequence ops = _
      unfold appendTransaction appendValidTransaction
      rw [if_neg (by simp [hv]), if_neg (Int.lt_irrefl _), hr]
      dsimp only
      rw [show appendTransactionRows H (operationHandles H s.root ops).1 sequenceBound
        ((ops.map CommitOperation.action).zip (operationHandles H s.root ops).2)
          = .error .trap from appendTransactionRows_trap _ _]
      rfl
  · obtain ⟨r', c, hok⟩ := hl.commits hs.wf hv hr (canonicalValidateCommit_ok hv)
    exact Or.inr ⟨r', c, hok, _, hok⟩

/-- **A commit leaves the session with the facts that stand after it.** -/
theorem Shows.commits (h : Shows K H s fs) {operations : List CommitOperation}
    (hv : validOperations operations = true) {facts' : List Fact}
    (heff : ∀ {root' coordinate metadata},
      commitBoundary H s.root operations metadata = .ok (root', coordinate) →
        ∃ live, liveOccurrences H root' = .ok live ∧
          live.map (·.proposition) = facts'.map Fact.triple) :
    Gives (commit K H (Fresh s operations)) s fun r s' => r = .ok () ∧ Shows K H s' facts' := by
  have hstands := h.stands
  obtain ⟨l, events, hl, hs, htracks, -⟩ := h
  rcases hstands.commit_cases hv with htrap | ⟨root', coordinate, hcom, metadata, hbnd⟩
  · intro r s' hrun
    unfold commit at hrun
    rcases Attempt.bind_cases hrun with ⟨e, hraise, -⟩ | ⟨committed, s₁, hfst, -⟩
    · rw [ask_trap htrap] at hraise
      exact nomatch hraise
    · rw [ask_trap htrap] at hfst
      exact nomatch hfst
  obtain ⟨-, -, hl', -⟩ := commitBoundary_spec hl hs.wf hbnd
  have hv' := (commitBoundary_spec hl hs.wf hbnd).1
  have hs' := hs.commit hv' (Int.le_refl _)
  obtain ⟨since, htracks'⟩ := htracks.later hs'.wf (l.commit_continues operations (Int.le_refl _))
  intro r s' hrun hsz
  unfold commit at hrun
  rw [Attempt.bind_of_ok (ask_ok hcom)] at hrun
  have hmodify : (Attempt.modify (fun s : Session => { s with root := root' }) s :
      Option (Except Thrown Unit × Session)) = some (.ok (), ⟨root', s.view⟩) := rfl
  rw [Attempt.bind_of_ok hmodify] at hrun
  have hroot : s'.root = root' := by
    rcases Attempt.bind_cases hrun with ⟨e, hraise, -⟩ | ⟨view, s₁, hview, hlast⟩
    · exact ask_after (P := fun _ s₁ => s₁.root = root') (fun _ _ => rfl) (fun _ _ => rfl) _ _ hraise
    · have hs₁ := ask_after (P := fun _ s₁ => s₁.root = root') (fun _ _ => rfl) (fun _ _ => rfl)
        _ _ hview
      obtain ⟨-, rfl⟩ := Prod.mk.inj (Option.some.inj hlast)
      exact hs₁
  rw [hroot] at hsz
  obtain ⟨view, hview⟩ := refresh_succeeds hl' hs' hsz htracks'
  rw [Attempt.bind_of_ok (ask_ok hview)] at hrun
  obtain ⟨rfl, rfl⟩ := Prod.mk.inj (Option.some.inj hrun)
  obtain ⟨events', htracks'', -⟩ := refresh_tracks hl' hs' htracks' hview
  obtain ⟨live, hlive, hfacts⟩ := heff hbnd
  rw [hl'.liveOccurrences_eq hs' htracks''.occurrences] at hlive
  obtain rfl := Except.ok.inj hlive
  exact ⟨rfl, _, events', hl', hs', htracks'', hfacts⟩

/-- Assertions stand behind what stood before them. -/
theorem standing_asserts {es acts : List OperationOccurrence}
    (h : ∀ act ∈ acts, asserted act = true) : standing es acts = es ++ acts := by
  induction acts generalizing es with
  | nil => exact (append_nil es).symm
  | cons act r ih =>
    show standing (standStep asserted ofProposition es act) r = _
    unfold standStep
    rw [if_pos (h act mem_cons_self), ih fun o ho =>
      h o (mem_cons_of_mem _ ho), append_assoc]
    rfl

theorem recorded_asserts {sid : String} {sq : Int64} {ad : List Fact} :
    ∀ {n : Nat} {a : List OperationOccurrence}, Forall₂ SameOccurrence (recorded sid sq n
        (ad.map fun fc => assertOperation fc.triple)) a →
        (∀ act ∈ a, Store.asserted act = true) ∧ a.map (·.proposition) = ad.map Fact.triple := by
  induction ad with
  | nil =>
    intro n a h
    cases h
    exact ⟨nofun, rfl⟩
  | cons fc r ih =>
    intro n a h
    rw [map_cons, ← singleton_append, recorded_append] at h
    obtain ⟨act, os, hact, hos, rfl⟩ := forall₂_cons_left_iff.mp h
    obtain ⟨hasr, hp⟩ := ih hos
    refine ⟨?_, ?_⟩
    · intro o ho
      rcases mem_cons.mp ho with rfl | ho
      · exact beq_iff_eq.mpr hact.action.symm
      · exact hasr o ho
    · rw [map_cons, map_cons, hp, Fact.eq_triple (Term.agrees_symm hact.proposition)]

/-- **A commit of assertions puts facts behind the others.** -/
theorem Shows.commit_asserts (h : Shows K H s fs) {a : List Fact} (hadd : a ≠ []) :
    Gives (commit K H (Fresh s (a.map fun fc => assertOperation fc.triple))) s
      fun r s' => r = .ok () ∧ Shows K H s' (fs ++ a) := by
  refine h.commits ?_ fun {root' c metadata} hcom => ?_
  · unfold validOperations
    rw [Bool.and_eq_true, all_map, all_eq_true, Bool.not_eq_true', isEmpty_eq_false_iff]
    exact ⟨fun hnil => hadd (map_eq_nil_iff.mp hnil), fun fc _ => rfl⟩
  · obtain ⟨l, es, hl, hs, ht, hf⟩ := h
    obtain ⟨mo, hl', hs', hall, hsa⟩ := hl.committed hs ht.occurrences hcom
    obtain ⟨hasr, hp⟩ := recorded_asserts hsa
    refine ⟨_, hl'.liveOccurrences_eq hs' hall, ?_⟩
    rw [standing_append, standing_asserts hasr, map_append, map_append, hf, hp]

/-- **The update of a single value puts one in the place of those under its pair.** -/
theorem Shows.commit_update (h : Shows K H s fs) (sb predicate v : String) :
    Gives (commit K H (Fresh s (compileSingleUpdate K s.view (text sb) (text predicate)
        (text v)))) s fun r s' => r = .ok () ∧
      Shows K H s' (apart sb predicate fs ++ [⟨sb, predicate, v⟩]) := by
  refine h.commits ?_ fun {root' c metadata} hcom => ?_
  · obtain ⟨l, es, hl, hs, ht, hf⟩ := h
    rw [ht.compiled]
    exact retractions_valid _ _
  · obtain ⟨l, es, hl, hs, ht, hf⟩ := h
    obtain ⟨l', ds, new, hupd⟩ := ht.updated hl hs hcom
    have hte : ∀ e ∈ standing [] es, ∃ fc : Fact, e.proposition = fc.triple := by
      intro e hev
      have hmem := mem_map_of_mem (f := OperationOccurrence.proposition) hev
      rw [show (standing [] es).map OperationOccurrence.proposition = _ from hf] at hmem
      obtain ⟨fc, -, heq⟩ := mem_map.mp hmem
      exact ⟨fc, heq.symm⟩
    have hc : ∀ e ∈ standing [] es, underPair (text sb) (text predicate) e = true →
          e.proposition.t3.hasNan = false := by
      intro e hev _
      obtain ⟨fc, hfa⟩ := hte e hev
      rw [hfa]
      rfl
    refine ⟨_, hupd.liveOccurrences_eq, ?_⟩
    rw [hupd.standing_drops hc, map_append, map_append]
    have hu : ∀ fc : Fact, patternMatch fc.triple (some (text sb))
        (some (text predicate)) none = fc.under sb predicate := by
      intro fc
      show ((text sb).same (text fc.subject) && ((text predicate).same (text fc.predicate) &&
        true)) = _
      rw [text_same, text_same, Bool.and_true]
      unfold Fact.under
      simp only [eq_comm]
    congr 1
    · have hle := filter_map (p := fun pr => !patternMatch pr
        (some (text sb)) (some (text predicate)) none)
        (f := OperationOccurrence.proposition) (l := standing [] es)
      have hr := filter_map (p := fun pr => !patternMatch pr
        (some (text sb)) (some (text predicate)) none) (f := Fact.triple) (l := fs)
      refine hle.symm.trans ((congrArg _ hf).trans (hr.trans ?_))
      unfold apart
      refine congrArg _ (filter_congr fun fc _ => ?_)
      show (!patternMatch fc.triple _ _ _) = _
      rw [hu]
    · have hnew : new.proposition = (Fact.mk sb predicate v).triple :=
        Fact.eq_triple hupd.proposition
      exact congrArg (fun pr => [pr]) hnew

end

end Beagle.Store.Schema
