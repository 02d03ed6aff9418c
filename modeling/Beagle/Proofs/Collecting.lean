/-
Collection follows imports.

What one import does to the state is said once.  From it follows what the sources, the receipts
and the interfaces are after any part of the walk: they belong to the imports put to the
resolver so far, one by one, and every source among them was reached.  A source more needs a
namespace more, so that the walk ends where namespaces do.
-/
import Beagle.Native.SourceCollection
import Beagle.Proofs.Closures

namespace Beagle.CompilerDriver

open Beagle.FrontendFacts List
open Beagle.Native (Sha256)
open Beagle.Lib.KeySort
open Beagle.Parser

/-! ### Answers -/

def ImportResolutionResponse.receipt : ImportResolutionResponse → ImportResolutionReceipt
  | .found receipt _ => receipt
  | .missing receipt => receipt
  | .external receipt _ => receipt
  | .failed receipt _ _ => receipt

/-- An import, with the source it stands in. -/
abbrev Edge := ResolvedSourceFacts × ImportEdgeFact

def Edge.request (edge : Edge) : ImportResolutionRequest := importRequest edge.1.path edge.2

/-- The imports of some sources, one behind the other. -/
def edgesOf (sources : List ResolvedSourceFacts) : List Edge :=
  sources.flatMap fun source => source.imports.map (Prod.mk source)

/-- The receipt of the answer to an import. -/
def receiptOf (resolver : ImportResolver) (edge : Edge) : ImportResolutionReceipt :=
  canonicalResolutionReceipt (resolver edge.request).receipt

/-- The import is answered by a source, with a receipt that fits. -/
def FoundBy (resolver : ImportResolver) (edge : Edge) (required : ResolvedSourceFacts) : Prop :=
  ∃ receipt, resolver edge.request = .found receipt required ∧
    foundReceiptValid (canonicalResolutionReceipt receipt) edge.request required = true

/-- The import is answered by an interface, with a receipt that fits. -/
def ExternalBy (resolver : ImportResolver) (edge : Edge) (interfaceContentId : String) : Prop :=
  ∃ receipt, resolver edge.request = .external receipt interfaceContentId ∧
    externalReceiptValid (canonicalResolutionReceipt receipt) edge.request interfaceContentId = true

/-- The answer may be taken beside these sources. -/
def Answered (resolver : ImportResolver) (sources : List ResolvedSourceFacts) (edge : Edge) :
    Prop :=
  (∃ interfaceContentId, ExternalBy resolver edge interfaceContentId) ∨
    ∃ required, FoundBy resolver edge required ∧ ∀ source ∈ sources,
      source.namespaceName = some edge.2.required → sameResolvedSource source required = true

/-- One source imports another. -/
def Requires (resolver : ImportResolver) (source required : ResolvedSourceFacts) : Prop :=
  ∃ edge ∈ source.imports, FoundBy resolver (source, edge) required

/-- A source is reached from the entry by imports that sources answer. -/
def Reached (resolver : ImportResolver) (entry source : ResolvedSourceFacts) : Prop :=
  Relation.ReflTransGen (Requires resolver) entry source

/-- The interface that answers an import. -/
def externalOf (resolver : ImportResolver) (edge : Edge) : Option ExternalImportResolution :=
  match resolver edge.request with
  | .external _ interfaceContentId =>
    some ⟨edge.1.path, edge.2.order, edge.2.required, interfaceContentId⟩
  | _ => none

variable {re : ImportResolver} {e : ResolvedSourceFacts} {edge : Edge}

theorem receiptOf_eq {a : ImportResolutionResponse} (h : re edge.request = a) :
    receiptOf re edge = canonicalResolutionReceipt a.receipt := by
  rw [← h]
  rfl

variable {required : ResolvedSourceFacts} {sources : List ResolvedSourceFacts}

theorem FoundBy.unique {required' : ResolvedSourceFacts} (h : FoundBy re edge required)
    (h' : FoundBy re edge required') : required = required' := by
  obtain ⟨rc, hans, -⟩ := h
  obtain ⟨rc', hans', -⟩ := h'
  exact (ImportResolutionResponse.found.inj (hans.symm.trans hans')).2

variable {interfaceContentId name : String}

theorem FoundBy.not_external (h : FoundBy re edge required) :
    ¬ ExternalBy re edge interfaceContentId := by
  obtain ⟨rc, hans, -⟩ := h
  rintro ⟨rc', hans', -⟩
  exact ImportResolutionResponse.noConfusion (hans.symm.trans hans')

/-- The receipt of a source that was found selects its path, and the source has the namespace. -/
theorem FoundBy.selects (h : FoundBy re edge required) :
    (receiptOf re edge).selectedPath = some required.path ∧
      required.namespaceName = some edge.2.required := by
  obtain ⟨receipt, hans, hv⟩ := h
  have hrec : receiptOf re edge = canonicalResolutionReceipt receipt :=
    receiptOf_eq hans
  rw [hrec]
  unfold foundReceiptValid at hv
  rw [Bool.and_eq_true] at hv
  replace hv := hv.2
  split at hv
  · rename_i s first hsel hpr
    simp only [Bool.and_eq_true, beq_iff_eq] at hv
    obtain ⟨⟨⟨⟨⟨-, hp⟩, -⟩, -⟩, -⟩, hn⟩ := hv
    exact ⟨hsel.trans (congrArg some hp), hn⟩
  · cases hv

/-- The receipt of an interface has one candidate, and selects it. -/
theorem ExternalBy.selects (h : ExternalBy re edge interfaceContentId) :
    ∃ d, (receiptOf re edge).dependencies = [d] ∧
      d.present = true ∧ d.contentId = interfaceContentId ∧
      (receiptOf re edge).selectedPath = some d.candidatePath := by
  obtain ⟨receipt, hans, hv⟩ := h
  have hrec : receiptOf re edge = canonicalResolutionReceipt receipt :=
    receiptOf_eq hans
  rw [hrec]
  unfold externalReceiptValid at hv
  simp only [Bool.and_eq_true, beq_iff_eq] at hv
  obtain ⟨⟨-, hone⟩, hv⟩ := hv
  obtain ⟨d, hd⟩ := length_eq_one_iff.mp hone
  split at hv
  · rename_i s first hsel hp
    simp only [Bool.and_eq_true, beq_iff_eq] at hv
    have hmem : first ∈ presentResolutionDependencies (canonicalResolutionReceipt receipt) := by
      rw [hp]
      exact mem_singleton_self first
    obtain ⟨hin, hfst⟩ := mem_filter.mp hmem
    rw [hd, mem_singleton] at hin
    subst hin
    exact ⟨first, hd, hfst, hv.2.symm, hsel.trans (congrArg some hv.1)⟩
  · cases hv

theorem receiptMatchesRequest_key {rc : ImportResolutionReceipt}
    {req : ImportResolutionRequest} (h : receiptMatchesRequest rc req = true) :
    rc.importerPath = req.importerPath ∧ rc.importOrder = req.importOrder ∧
      rc.requiredNamespace = req.requiredNamespace := by
  unfold receiptMatchesRequest at h
  simp only [Bool.and_eq_true, beq_iff_eq] at h
  exact ⟨h.1.1.1.1.1, h.1.1.1.1.2, h.1.1.1.2⟩

/-- The receipt of an answer that is taken names the import. -/
theorem Answered.key (h : Answered re sources edge) :
    (receiptOf re edge).importerPath = edge.1.path ∧
      (receiptOf re edge).importOrder = edge.2.order ∧
      (receiptOf re edge).requiredNamespace = edge.2.required := by
  rcases h with ⟨id, rc, hans, hv⟩ | ⟨required, ⟨rc, hans, hv⟩, -⟩
  · have hkey := receiptMatchesRequest_key (Bool.and_eq_true _ _ ▸ (Bool.and_eq_true _ _ ▸ hv).1).1
    rw [receiptOf_eq hans]
    exact hkey
  · have hkey := receiptMatchesRequest_key (Bool.and_eq_true _ _ ▸ hv).1
    unfold receiptOf
    rw [hans]
    exact hkey

theorem resolvedSourceForNamespace_eq_none : resolvedSourceForNamespace sources name = none ↔
      ∀ source ∈ sources, source.namespaceName ≠ some name := by
  unfold resolvedSourceForNamespace
  rw [find?_eq_none]
  refine forall₂_congr fun source _ => ?_
  rw [beq_iff_eq]
  exact not_congr eq_comm

theorem resolvedSourceForNamespace_eq_some {ex : ResolvedSourceFacts}
    (h : resolvedSourceForNamespace sources name = some ex) :
    ex ∈ sources ∧ ex.namespaceName = some name := by
  unfold resolvedSourceForNamespace at h
  have hn := find?_some h
  rw [beq_iff_eq] at hn
  exact ⟨mem_of_find?_eq_some h, hn.symm⟩

/-! ### What an import does -/

/-- One more receipt, behind those of the state. -/
def SourceCollectionState.receive (state : SourceCollectionState) (resolver : ImportResolver)
    (edge : Edge) : SourceCollectionState :=
  { state with receipts := state.receipts ++ [receiptOf resolver edge] }

/-- **The effect of an import.** -/
theorem resolveImportStep_cases (st : SourceCollectionState) (edge : Edge) (re : ImportResolver) :
    (∃ id, ExternalBy re edge id ∧ resolveImportStep st edge.1.path edge.2 re = .resolved
        { st.receive re edge with
          externalImports := st.externalImports ++
            [⟨edge.1.path, edge.2.order, edge.2.required, id⟩] }) ∨
    (∃ required ex, FoundBy re edge required ∧
      resolvedSourceForNamespace st.sources edge.2.required = some ex ∧
      sameResolvedSource ex required = true ∧
      resolveImportStep st edge.1.path edge.2 re = .resolved (st.receive re edge)) ∨
    (∃ required, FoundBy re edge required ∧
      resolvedSourceForNamespace st.sources edge.2.required = none ∧
      resolveImportStep st edge.1.path edge.2 re = .resolved
        { st.receive re edge with sources := st.sources ++ [required] }) ∨
    (¬ Answered re st.sources edge ∧ ∃ c d, resolveImportStep st edge.1.path edge.2 re =
        .rejected c d (st.receipts ++ [receiptOf re edge])) := by
  have hrq : importRequest edge.1.path edge.2 = edge.request := rfl
  unfold resolveImportStep SourceCollectionState.receive receiptOf
  rw [hrq]
  dsimp only
  cases hans : re edge.request with
  | failed rc c d | missing rc =>
    refine Or.inr (Or.inr (Or.inr ⟨by simp [Answered, ExternalBy, FoundBy, hans], ?_⟩))
    dsimp only [ImportResolutionResponse.receipt]
    split
    all_goals exact ⟨_, _, rfl⟩
  | external rc id =>
    dsimp only [ImportResolutionResponse.receipt]
    by_cases hv : externalReceiptValid (canonicalResolutionReceipt rc) edge.request id = true
    · rw [hv, if_neg (by decide)]
      exact Or.inl ⟨id, ⟨rc, hans, hv⟩, rfl⟩
    · rw [Bool.eq_false_of_not_eq_true hv, if_pos (by decide)]
      refine Or.inr (Or.inr (Or.inr ⟨?_, _, _, rfl⟩))
      simp [Answered, ExternalBy, FoundBy, hans, hv]
  | found rc required =>
    dsimp only [ImportResolutionResponse.receipt]
    by_cases hv : foundReceiptValid (canonicalResolutionReceipt rc) edge.request required = true
    swap
    · rw [Bool.eq_false_of_not_eq_true hv, if_pos (by decide)]
      refine Or.inr (Or.inr (Or.inr ⟨?_, _, _, rfl⟩))
      simp [Answered, ExternalBy, FoundBy, hans, hv]
    have found : FoundBy re edge required := ⟨rc, hans, hv⟩
    rw [hv, if_neg (by decide)]
    cases he : resolvedSourceForNamespace st.sources edge.2.required with
    | none => exact Or.inr (Or.inr (Or.inl ⟨required, found, rfl, rfl⟩))
    | some ex =>
      dsimp only
      by_cases hs : sameResolvedSource ex required = true
      · rw [hs, if_neg (by decide)]
        exact Or.inr (Or.inl ⟨required, ex, found, rfl, hs, rfl⟩)
      · rw [Bool.eq_false_of_not_eq_true hs, if_pos (by decide)]
        refine Or.inr (Or.inr (Or.inr ⟨?_, _, _, rfl⟩))
        rintro (⟨id, hext⟩ | ⟨rq', fd', hall⟩)
        · exact found.not_external hext
        · obtain ⟨hmem, hn⟩ := resolvedSourceForNamespace_eq_some he
          rw [found.unique fd'] at hs
          exact hs (hall ex hmem hn)

/-! ### What is gathered -/

/-- The state after some imports have been put to the resolver. -/
structure Gathered (resolver : ImportResolver) (entry : ResolvedSourceFacts)
    (state : SourceCollectionState) (done : List Edge) : Prop where
  entry_mem : entry ∈ state.sources
  namespaces : (state.sources.map ResolvedSourceFacts.namespaceName).Nodup
  reached : ∀ source ∈ state.sources, Reached resolver entry source
  receipts : state.receipts = done.map (receiptOf resolver)
  externals : state.externalImports = done.filterMap (externalOf resolver)
  answered : ∀ edge ∈ done, (∃ id, ExternalBy resolver edge id) ∨
    ∃ required, FoundBy resolver edge required ∧ ∃ source ∈ state.sources,
      source.namespaceName = some edge.2.required ∧ sameResolvedSource source required = true

theorem externalOf_external {id : String} (h : ExternalBy re edge id) :
    externalOf re edge = some ⟨edge.1.path, edge.2.order, edge.2.required, id⟩ := by
  obtain ⟨rc, hans, -⟩ := h
  unfold externalOf
  rw [hans]

theorem externalOf_found (h : FoundBy re edge required) : externalOf re edge = none := by
  obtain ⟨rc, hans, -⟩ := h
  unfold externalOf
  rw [hans]

theorem gathered_first (re : ImportResolver) (e : ResolvedSourceFacts) :
    Gathered re e ⟨[e], [], []⟩ [] := by
  refine ⟨mem_singleton_self _, nodup_singleton _, ?_, rfl, rfl,
    forall_mem_nil _⟩
  intro source hsrc
  rw [mem_singleton.mp hsrc]
  exact Relation.ReflTransGen.refl

variable {st : SourceCollectionState} {done : List Edge}

/-- In a gathered state an answered import goes with every source of its namespace. -/
theorem Gathered.answered_beside (h : Gathered re e st done)
    {edge : Edge} (he : edge ∈ done) : Answered re st.sources edge := by
  rcases h.answered edge he with hext | ⟨required, fd, source, hmem, hn, hs⟩
  · exact Or.inl hext
  · refine Or.inr ⟨required, fd, ?_⟩
    intro o ho hon
    rwa [inj_on_of_nodup_map h.namespaces ho hmem (hon.trans hn.symm)]

/-- **Gathering goes on** with every import that is answered; the sources only grow. -/
theorem Gathered.step {st next : SourceCollectionState} {done : List Edge} {edge : Edge}
    (h : Gathered re e st done) (hsrc : edge.1 ∈ st.sources)
    (hed : edge.2 ∈ edge.1.imports)
    (hs : resolveImportStep st edge.1.path edge.2 re = .resolved next) :
    Gathered re e next (done ++ [edge]) ∧ st.sources <+: next.sources := by
  have hr : ∀ r, r = [receiptOf re edge] →
      st.receipts ++ r = (done ++ [edge]).map (receiptOf re) := by
    rintro r rfl
    rw [h.receipts, map_append]
    rfl
  have he : ∀ {required}, FoundBy re edge required →
      st.externalImports = (done ++ [edge]).filterMap (externalOf re) := by
    intro required fd
    rw [h.externals, filterMap_append, filterMap_cons, externalOf_found fd,
      filterMap_nil, append_nil]
  have hone : ∀ {p : Edge → Prop}, (∀ other ∈ done, p other) → p edge →
      ∀ other ∈ done ++ [edge], p other := by
    intro p hd hp other ho
    rcases List.mem_append.mp ho with ho | ho
    · exact hd other ho
    · rwa [mem_singleton.mp ho]
  rcases resolveImportStep_cases st edge re with
    ⟨id, hext, hres⟩ | ⟨required, ex, fd, hex, hsa, hres⟩ |
    ⟨required, fd, hnew, hres⟩ | ⟨-, code, detail, hres⟩
  · obtain rfl := ResolveImportStep.resolved.inj (hres.symm.trans hs)
    refine ⟨⟨h.entry_mem, h.namespaces, h.reached, hr _ rfl, ?_,
      hone h.answered (Or.inl ⟨id, hext⟩)⟩, prefix_refl _⟩
    rw [filterMap_append, filterMap_cons, externalOf_external hext, filterMap_nil, ← h.externals]
  · obtain rfl := ResolveImportStep.resolved.inj (hres.symm.trans hs)
    obtain ⟨hmem, hn⟩ := resolvedSourceForNamespace_eq_some hex
    exact ⟨⟨h.entry_mem, h.namespaces, h.reached, hr _ rfl, he fd,
      hone h.answered (Or.inr ⟨required, fd, ex, hmem, hn, hsa⟩)⟩,
      prefix_refl _⟩
  · obtain rfl := ResolveImportStep.resolved.inj (hres.symm.trans hs)
    have hn := fd.selects.2
    refine ⟨⟨mem_append_left _ h.entry_mem, ?_, ?_, hr _ rfl, he fd, ?_⟩, prefix_append _ _⟩
    · -- no source has the namespace of the new one
      rw [map_append, nodup_append]
      refine ⟨h.namespaces, nodup_singleton _, ?_⟩
      intro name hold n' hn' heq
      obtain ⟨source, hmem, rfl⟩ := mem_map.mp hold
      rw [map_singleton, mem_singleton] at hn'
      exact resolvedSourceForNamespace_eq_none.mp hnew source hmem (heq.trans (hn'.trans hn))
    · intro source hmem
      rcases List.mem_append.mp hmem with hmem | hmem
      · exact h.reached source hmem
      · rw [mem_singleton.mp hmem]
        exact (h.reached edge.1 hsrc).tail ⟨edge.2, hed, fd⟩
    · refine hone ?_ ?_
      · intro other ho
        refine (h.answered other ho).imp_right ?_
        rintro ⟨rq', fd', source, hmem, hre⟩
        exact ⟨rq', fd', source, mem_append_left _ hmem, hre⟩
      · refine Or.inr ⟨required, fd, required, ?_, hn, ?_⟩
        · exact mem_append_right _ (mem_singleton_self _)
        · unfold sameResolvedSource
          rw [beq_self_eq_true, beq_self_eq_true, Bool.and_self]
  · exact ResolveImportStep.noConfusion (hres.symm.trans hs)

/-! ### The walk -/

/-- The collection failed at an import: those before it were answered, and it was not. -/
structure Stopped (resolver : ImportResolver) (entry : ResolvedSourceFacts)
    (state : SourceCollectionState) (done : List Edge) (failing : Edge)
    (receipts : List ImportResolutionReceipt) : Prop where
  gathered : Gathered resolver entry state done
  unanswered : ¬ Answered resolver state.sources failing
  receipts : receipts = (done ++ [failing]).map (receiptOf resolver)

variable {source : ResolvedSourceFacts} {cu : Nat}

/-- What the imports of one source do. -/
theorem resolveImports_cases (ims : List ImportEdgeFact)
    (h : Gathered re e st done) (hsrc : source ∈ st.sources)
    (hsub : ∀ edge ∈ ims, edge ∈ source.imports) :
    (∃ next, resolveImports source.path re ims st = .resolved next ∧
      Gathered re e next (done ++ ims.map (Prod.mk source)) ∧
      st.sources <+: next.sources) ∨
    ∃ c d receipts b edge a mid, resolveImports source.path re ims st = .rejected c d receipts ∧
      ims = b ++ edge :: a ∧ st.sources <+: mid.sources ∧
      Stopped re e mid (done ++ b.map (Prod.mk source)) (source, edge) receipts := by
  induction ims generalizing st done with
  | nil =>
    refine Or.inl ⟨st, rfl, ?_, prefix_refl _⟩
    rwa [map_nil, append_nil]
  | cons edge ims ih =>
    rw [resolveImports]
    cases hs : resolveImportStep st source.path edge re with
    | rejected c d receipts =>
      refine Or.inr ⟨c, d, receipts, [], edge, ims, st, rfl, rfl, prefix_refl _, ?_⟩
      rw [map_nil, append_nil]
      rcases resolveImportStep_cases st (source, edge) re with
        ⟨id, -, hres⟩ | ⟨required, ex, -, -, -, hres⟩ |
        ⟨required, -, -, hres⟩ | ⟨hunanswered, code', detail', hres⟩
      · exact ResolveImportStep.noConfusion (hres.symm.trans hs)
      · exact ResolveImportStep.noConfusion (hres.symm.trans hs)
      · exact ResolveImportStep.noConfusion (hres.symm.trans hs)
      · obtain ⟨-, -, rfl⟩ := ResolveImportStep.rejected.inj (hres.symm.trans hs)
        refine ⟨h, hunanswered, ?_⟩
        rw [h.receipts, map_append]
        rfl
    | resolved next =>
      have he : edge ∈ source.imports := hsub edge mem_cons_self
      obtain ⟨g, hg⟩ :=
        @Gathered.step _ _ _ next _ (source, edge) h hsrc he hs
      have hl : ∀ os : List ImportEdgeFact, done ++ [(source, edge)] ++
          os.map (Prod.mk source) = done ++ (edge :: os).map (Prod.mk source) := by
        intro os
        rw [append_assoc]
        rfl
      rcases ih g (hg.subset hsrc) (fun o ho => hsub o (mem_cons_of_mem _ ho)) with
        ⟨last, hlast, hgathered, hgrown'⟩ |
        ⟨c, d, receipts, b, failing, a, mid, hres, hsp, hgrown', stopped⟩
      · exact Or.inl ⟨last, hlast, hl ims ▸ hgathered, hg.trans hgrown'⟩
      · exact Or.inr ⟨c, d, receipts, edge :: b, failing, a, mid, hres,
          by rw [hsp, cons_append], hg.trans hgrown', hl b ▸ stopped⟩

theorem edgesOf_append (sources others : List ResolvedSourceFacts) :
    edgesOf (sources ++ others) = edgesOf sources ++ edgesOf others := flatMap_append

theorem edgesOf_cons (source : ResolvedSourceFacts) (sources : List ResolvedSourceFacts) :
    edgesOf (source :: sources) = source.imports.map (Prod.mk source) ++ edgesOf sources :=
  flatMap_cons

theorem edgesOf_concat (sources : List ResolvedSourceFacts) (source : ResolvedSourceFacts) :
    edgesOf (sources ++ [source]) = edgesOf sources ++ source.imports.map (Prod.mk source) := by
  rw [edgesOf_append, edgesOf_cons]
  exact congrArg (edgesOf sources ++ ·) (append_nil _)

theorem mem_edgesOf : edge ∈ edgesOf sources ↔ edge.1 ∈ sources ∧ edge.2 ∈ edge.1.imports := by
  unfold edgesOf
  rw [mem_flatMap]
  constructor
  · rintro ⟨source, hsrc, he⟩
    obtain ⟨f, hf, rfl⟩ := mem_map.mp he
    exact ⟨hsrc, hf⟩
  · rintro ⟨hsrc, hf⟩
    exact ⟨edge.1, hsrc, mem_map.mpr ⟨edge.2, hf, rfl⟩⟩

/-- A list up to one of its elements, in a list that goes on from it. -/
theorem take_of_grown {α : Type} {xs ys : List α} {i : Nat} {x : α} (hx : xs[i]? = some x)
    (hg : xs <+: ys) :
    ys.take (i + 1) = xs.take i ++ [x] ∧ ∃ more, ys = xs.take i ++ x :: more := by
  obtain ⟨more, rfl⟩ := hg
  obtain ⟨hi, rfl⟩ := List.getElem?_eq_some_iff.mp hx
  refine ⟨?_, xs.drop (i + 1) ++ more, ?_⟩
  · rw [take_append_of_le_length hi, take_succ_eq_append_getElem hi]
  · rw [← cons_append, getElem_cons_drop, ← append_assoc, take_append_drop]

/-- **What the walk ends with.**  Either every import of every source was answered, and what was
gathered is closed; or it stopped at an import. -/
theorem collectFrom_cases (sha : Sha256) (k : Nat) {res : CollectSourceFactsResult}
    (h : Gathered re e st (edgesOf (st.sources.take cu)))
    (hres : collectFrom sha e re k cu st = some res) :
    (∃ fi, Gathered re e fi (edgesOf fi.sources) ∧ res = closeCollected sha e fi) ∨
    ∃ c d receipts mid done f l,
      res = .rejected c d receipts ∧ edgesOf mid.sources = done ++ f :: l ∧
      Stopped re e mid done f receipts := by
  induction k generalizing cu st with
  | zero => cases hres
  | succ k ih =>
    rw [collectFrom] at hres
    cases hsrc : st.sources[cu]? with
    | none =>
      rw [hsrc] at hres
      rw [take_of_length_le (List.getElem?_eq_none_iff.mp hsrc)] at h
      exact Or.inl ⟨st, h, (Option.some.inj hres).symm⟩
    | some source =>
      rw [hsrc] at hres
      dsimp only at hres
      unfold resolveModuleImports at hres
      rcases resolveImports_cases source.imports h (mem_of_getElem? hsrc) (fun _ he => he) with
        ⟨next, hnext, hgathered, hgrown⟩ |
        ⟨c, d, receipts, before, edge, after, mid, hfailed, hsp, hgrown, stopped⟩
      · rw [hnext] at hres
        have ht := (take_of_grown hsrc hgrown).1
        refine ih ?_ hres
        rwa [ht, edgesOf_concat]
      · rw [hfailed] at hres
        obtain ⟨m, hm⟩ := (take_of_grown hsrc hgrown).2
        refine Or.inr ⟨c, d, receipts, mid, _, _,
          after.map (Prod.mk source) ++ edgesOf m, (Option.some.inj hres).symm, ?_,
          stopped⟩
        rw [hm, edgesOf_append, edgesOf_cons, hsp, map_append, map_cons]
        simp only [append_assoc, cons_append]

/-! ### The end of the walk -/

/-- The namespaces that are reached. -/
def reachedNamespaces (resolver : ImportResolver) (entry : ResolvedSourceFacts) : Set String :=
  {name | ∃ source, Reached resolver entry source ∧ source.namespaceName = some name}

/-- There are at most as many sources as namespaces, and one for a source without any. -/
theorem Gathered.length_le (h : Gathered re e st done)
    (hfin : (reachedNamespaces re e).Finite) :
    st.sources.length ≤ hfin.toFinset.card + 1 := by
  classical
  have hsub : (st.sources.map ResolvedSourceFacts.namespaceName).toFinset ⊆
      insert none (hfin.toFinset.image some) := by
    intro name hn
    obtain ⟨source, hsrc, rfl⟩ := mem_map.mp (mem_toFinset.mp hn)
    cases hs : source.namespaceName with
    | none => exact Finset.mem_insert_self _ _
    | some name =>
      refine Finset.mem_insert_of_mem (Finset.mem_image_of_mem _ ?_)
      exact hfin.mem_toFinset.mpr ⟨source, h.reached source hsrc, hs⟩
  have hc := Finset.card_le_card hsub
  rw [toFinset_card_of_nodup h.namespaces, length_map] at hc
  refine hc.trans ((Finset.card_insert_le _ _).trans ?_)
  exact Nat.succ_le_succ Finset.card_image_le

/-- The walk ends when there is fuel for every namespace. -/
theorem collectFrom_isSome (sha : Sha256) (hfin : (reachedNamespaces re e).Finite)
    (k : Nat) (h : Gathered re e st (edgesOf (st.sources.take cu)))
    (hc : cu ≤ st.sources.length) (hf : hfin.toFinset.card + 2 ≤ k + cu) :
    (collectFrom sha e re k cu st).isSome = true := by
  induction k generalizing cu st with
  | zero =>
    have hle := h.length_le hfin
    omega
  | succ k ih =>
    rw [collectFrom]
    cases hsrc : st.sources[cu]? with
    | none => rfl
    | some source =>
      dsimp only
      unfold resolveModuleImports
      rcases resolveImports_cases source.imports h (mem_of_getElem? hsrc) (fun _ he => he) with
        ⟨next, hnext, hgathered, hgrown⟩ | ⟨_, _, _, _, _, _, _, hfailed, -⟩
      · rw [hnext]
        have ht := (take_of_grown hsrc hgrown).1
        have hlt := (List.getElem?_eq_some_iff.mp hsrc).1
        refine ih ?_ (Nat.le_trans hlt hgrown.length_le) (by omega)
        rwa [ht, edgesOf_concat]
      · rw [hfailed]
        rfl

/-! ### What is collected -/

/-- The source without the imports that interfaces answer. -/
def withoutExternals (resolver : ImportResolver) (source : ResolvedSourceFacts) :
    SyntaxFactBundle :=
  { source.normalized with
    imports := source.imports.filter fun edge => (externalOf resolver (source, edge)).isNone }

/-- The import that a receipt names, or an import itself. -/
def ImportResolutionReceipt.key (receipt : ImportResolutionReceipt) : ImportResolutionRequest :=
  ⟨receipt.importerPath, receipt.importOrder, receipt.requiredNamespace⟩

/-- Sources of one path and one digest are one. -/
def Faithful (resolver : ImportResolver) (entry : ResolvedSourceFacts) : Prop :=
  ∀ source source', Reached resolver entry source → Reached resolver entry source' →
    sameResolvedSource source source' = true → source = source'

/-- A collection is of these sources. -/
structure Collects (resolver : ImportResolver) (entry : ResolvedSourceFacts)
    (sources : List ResolvedSourceFacts) (collected : CollectedSourceFacts) : Prop where
  rawModules : collected.rawModules = sources.map ResolvedSourceFacts.raw
  modules : collected.closure.modules.Perm (sources.map (withoutExternals resolver))
  entry_mem : entry ∈ sources
  paths : (sources.map ResolvedSourceFacts.path).Nodup
  named : ∀ source ∈ sources, source.namespaceName ≠ none
  namespaces : (sources.map ResolvedSourceFacts.namespaceName).Nodup
  reached : ∀ source ∈ sources, Reached resolver entry source
  closed : ∀ source ∈ sources, ∀ required, Requires resolver source required →
    ∃ same ∈ sources, same.namespaceName = required.namespaceName ∧
      sameResolvedSource same required = true
  exact : Faithful resolver entry → ∀ source, Reached resolver entry source → source ∈ sources
  receipts : collected.receipts = (edgesOf sources).map (receiptOf resolver)
  keys : collected.receipts.map ImportResolutionReceipt.key = (edgesOf sources).map Edge.request
  selected : ∀ edge ∈ edgesOf sources,
    (∃ source ∈ sources, source.namespaceName = some edge.2.required ∧
      (receiptOf resolver edge).selectedPath = some source.path) ∨
    ∃ id, ExternalBy resolver edge id ∧ ∃ dependency,
      (receiptOf resolver edge).dependencies = [dependency] ∧ dependency.present = true ∧
      (receiptOf resolver edge).selectedPath = some dependency.candidatePath
  externals : collected.externalImports = (edgesOf sources).filterMap (externalOf resolver)
  agree : ∀ edge ∈ edgesOf sources, ∀ edge' ∈ edgesOf sources,
    edge.2.required = edge'.2.required → ∀ required required', FoundBy resolver edge required →
      FoundBy resolver edge' required' →
      (receiptOf resolver edge).selectedPath = (receiptOf resolver edge').selectedPath

theorem sameResolvedSource_path {l r : ResolvedSourceFacts}
    (h : sameResolvedSource l r = true) : l.path = r.path := by
  unfold sameResolvedSource at h
  rw [Bool.and_eq_true, beq_iff_eq] at h
  exact h.1

variable (h : Gathered re e st (edgesOf st.sources))
include h

/-- An import is left out of what is closed exactly when an interface answered it. -/
theorem externallyResolvedImport_iff {edge : Edge} (he : edge ∈ edgesOf st.sources) :
    externallyResolvedImport st.externalImports edge.1.path edge.2 =
      (externalOf re edge).isSome := by
  rw [Bool.eq_iff_iff]
  unfold externallyResolvedImport
  rw [h.externals, any_eq_true]
  constructor
  · rintro ⟨external, hmem, hmat⟩
    obtain ⟨o, ho, hext⟩ := mem_filterMap.mp hmem
    unfold externalImportMatchesEdge at hmat
    simp only [Bool.and_eq_true, beq_iff_eq] at hmat
    -- the resolver answers by the request alone
    unfold externalOf at hext ⊢
    cases hans : re o.request with
    | external rc id =>
      rw [hans] at hext
      obtain rfl := Option.some.inj hext
      have hrq : edge.request = o.request := by
        unfold Edge.request importRequest
        rw [hmat.1.1, hmat.1.2, hmat.2]
      rw [hrq, hans]
      rfl
    | found | missing | failed => rw [hans] at hext; cases hext
  · intro hs
    obtain ⟨external, hext⟩ := Option.isSome_iff_exists.mp hs
    refine ⟨external, mem_filterMap.mpr ⟨edge, he, hext⟩, ?_⟩
    rcases h.answered edge he with ⟨id, hby⟩ | ⟨required, found, -⟩
    · rw [externalOf_external hby] at hext
      obtain rfl := Option.some.inj hext
      unfold externalImportMatchesEdge
      simp only [beq_self_eq_true, Bool.and_self]
    · rw [externalOf_found found] at hext
      cases hext

theorem bundleForParser_eq : ((explicitFactSources st).map ExplicitFactSource.bundle) =
      st.sources.map (withoutExternals re) := by
  unfold explicitFactSources
  rw [map_map]
  refine map_congr_left fun source hsrc => ?_
  show sourceBundleForParser source.normalized st.externalImports = _
  unfold sourceBundleForParser sourceImportsForParser withoutExternals
  have hf : source.normalized.imports.filter (fun edge =>
      !externallyResolvedImport st.externalImports source.normalized.path edge) =
      source.imports.filter fun edge => (externalOf re (source, edge)).isNone := by
    refine filter_congr fun edge he => ?_
    have hmem : (source, edge) ∈ edgesOf st.sources := mem_edgesOf.mpr ⟨hsrc, he⟩
    have hiff := externallyResolvedImport_iff h hmem
    dsimp only at hiff
    rw [← Option.not_isSome, ← hiff]
    rfl
  rw [hf]

theorem closed_of_gathered (hsrc : source ∈ st.sources) (hreq : Requires re source required) :
    ∃ s ∈ st.sources, s.namespaceName = required.namespaceName ∧
      sameResolvedSource s required = true := by
  obtain ⟨edge, he, fd⟩ := hreq
  rcases h.answered (source, edge) (mem_edgesOf.mpr ⟨hsrc, he⟩) with
    ⟨id, hext⟩ | ⟨rq', fd', s, hmem, hn, hs⟩
  · exact absurd hext fd.not_external
  · obtain rfl := fd.unique fd'
    exact ⟨s, hmem, hn.trans fd.selects.2.symm, hs⟩

/-- What is collected is what was gathered. -/
theorem collects_of_closed {sha : Sha256} {collected : CollectedSourceFacts}
    (hc : closeCollected sha e st = .collected collected) :
    Collects re e st.sources collected := by
  unfold closeCollected closeSourceFacts at hc
  cases hp : parseExplicitBundle sha ⟨e.path, explicitFactSources st⟩ with
  | rejected es =>
    rw [hp] at hc
    cases hc
  | parsed cl =>
    rw [hp] at hc
    obtain rfl := CollectSourceFactsResult.collected.inj hc
    obtain ⟨hcl, os, -, -, hpe, hclo⟩ := parseExplicitBundle_parsed hp
    have hpa : (explicitFactSources st).map ExplicitFactSource.path =
        st.sources.map ResolvedSourceFacts.path := map_map
    have hca : ∀ edge ∈ edgesOf st.sources, (∃ id, ExternalBy re edge id) ∨
        ∃ required, FoundBy re edge required ∧ ∃ source ∈ st.sources,
          source.namespaceName = some edge.2.required ∧
          (receiptOf re edge).selectedPath = some source.path := by
      intro edge he
      refine (h.answered edge he).imp_right ?_
      rintro ⟨required, fd, source, hmem, hn, hs⟩
      refine ⟨required, fd, source, hmem, hn, ?_⟩
      rw [fd.selects.1, sameResolvedSource_path hs]
    refine
      { rawModules := rfl
        modules := ?_
        entry_mem := h.entry_mem
        paths := hpa ▸ hcl.paths
        named := ?_
        namespaces := h.namespaces
        reached := h.reached
        closed := fun source hsrc required => closed_of_gathered h hsrc
        exact := ?_
        receipts := h.receipts
        keys := ?_
        selected := ?_
        externals := h.externals
        agree := ?_ }
    · rw [hclo, ← bundleForParser_eq h]
      exact hpe.map ExplicitFactSource.bundle
    · intro source hsrc
      exact (hcl.valid _ (mem_map_of_mem hsrc)).name
    · intro hf source hre
      induction hre with
      | refl => exact h.entry_mem
      | @tail source required hsrc hr ih =>
        obtain ⟨s, hmem, -, hs⟩ := closed_of_gathered h ih hr
        rwa [hf s required (h.reached s hmem) (hsrc.tail hr) hs] at hmem
    · dsimp only
      rw [h.receipts, map_map]
      refine map_congr_left fun edge he => ?_
      obtain ⟨hpat, hord, hreq⟩ := (h.answered_beside he).key
      show ImportResolutionReceipt.key _ = importRequest _ _
      unfold ImportResolutionReceipt.key importRequest
      rw [hpat, hord, hreq]
    · intro edge he
      rcases hca edge he with ⟨id, hext⟩ | ⟨required, -, hsrc⟩
      · obtain ⟨d, hone, hpr, -, hsel⟩ := hext.selects
        exact Or.inr ⟨id, hext, d, hone, hpr, hsel⟩
      · exact Or.inl hsrc
    · intro edge he e' he' hreq required rq' fd fd'
      rcases hca edge he with ⟨id, hext⟩ | ⟨-, -, source, hmem, hn, hsel⟩
      · exact absurd hext fd.not_external
      rcases hca e' he' with ⟨id, hext⟩ | ⟨-, -, s', hmem', hn', hsel'⟩
      · exact absurd hext fd'.not_external
      rw [hsel, hsel', inj_on_of_nodup_map h.namespaces hmem hmem' (hn.trans (hreq ▸ hn'.symm))]

omit h

/-- **Collection gathers the import closure.**  It ends when the namespaces reached are finitely
many; what it collects is the entry and what is reached from it; and a failure shows the receipts
of the imports answered before it, with that of the import it failed at, if it was one. -/
theorem collection_gathers_closure (sha : Sha256) (entry : ResolvedSourceFacts)
    (resolver : ImportResolver) :
    ((reachedNamespaces resolver entry).Finite →
      ∃ fuel result, collectSourceFacts sha entry resolver fuel = some result) ∧
    (∀ fuel collected, collectSourceFacts sha entry resolver fuel = some (.collected collected) →
      ∃ sources, Collects resolver entry sources collected) ∧
    ∀ fuel code detail receipts,
      collectSourceFacts sha entry resolver fuel = some (.rejected code detail receipts) →
      (∃ sources done failing later, (∀ source ∈ sources, Reached resolver entry source) ∧
        edgesOf sources = done ++ failing :: later ∧
        (∀ edge ∈ done, Answered resolver sources edge) ∧ ¬ Answered resolver sources failing ∧
        receipts = (done ++ [failing]).map (receiptOf resolver)) ∨
      ∃ sources, entry ∈ sources ∧ (∀ source ∈ sources, Reached resolver entry source) ∧
        (∀ edge ∈ edgesOf sources, Answered resolver sources edge) ∧
        receipts = (edgesOf sources).map (receiptOf resolver) ∧
        ∃ errors, parseExplicitBundle sha ⟨entry.path, explicitFactSources ⟨sources, receipts,
          (edgesOf sources).filterMap (externalOf resolver)⟩⟩ = .rejected errors := by
  have hfst : Gathered resolver entry ⟨[entry], [], []⟩ (edgesOf (([entry] :
      List ResolvedSourceFacts).take 0)) := gathered_first resolver entry
  refine ⟨?_, ?_, ?_⟩
  · intro hf
    have hs := collectFrom_isSome sha hf (hf.toFinset.card + 2) hfst (Nat.zero_le _) (Nat.le_refl _)
    obtain ⟨result, hres⟩ := Option.isSome_iff_exists.mp hs
    exact ⟨_, result, hres⟩
  · intro fuel collected h
    rcases collectFrom_cases sha fuel hfst h with
      ⟨f, g, hfin⟩ | ⟨_, _, _, _, _, _, _, hrej, -⟩
    · exact ⟨f.sources, collects_of_closed g hfin.symm⟩
    · cases hrej
  · intro fuel code detail receipts h
    rcases collectFrom_cases sha fuel hfst h with
      ⟨f, g, hfin⟩ |
      ⟨_, _, _, mid, done, failing, later, hrej, hsp, stopped⟩
    · refine Or.inr ⟨f.sources, g.entry_mem, g.reached,
        fun edge => g.answered_beside, ?_⟩
      unfold closeCollected closeSourceFacts at hfin
      cases hp : parseExplicitBundle sha ⟨entry.path, explicitFactSources f⟩ with
      | parsed cl =>
        rw [hp] at hfin
        cases hfin
      | rejected errors =>
        rw [hp] at hfin
        obtain ⟨-, -, rfl⟩ := CollectSourceFactsResult.rejected.inj hfin
        refine ⟨g.receipts, errors, ?_⟩
        rw [← g.externals]
        exact hp
    · obtain ⟨-, -, rfl⟩ := CollectSourceFactsResult.rejected.inj hrej
      exact Or.inl ⟨mid.sources, done, failing, later, stopped.gathered.reached, hsp,
        fun edge => stopped.gathered.answered_beside, stopped.unanswered, stopped.receipts⟩

/-! ### What collection does not do -/

/-- A source without facts. -/
def bareSource (name : String) (imports : List ImportEdgeFact) : ResolvedSourceFacts :=
  let bundle : SyntaxFactBundle :=
    ⟨name ++ ".bgl", some name, "", "digest", "native-core", [], imports, []⟩
  ⟨bundle, bundle, .package⟩

def bareImport (order : Int) (importer required : String) : ImportEdgeFact :=
  ⟨order, importer, required, none, [], ⟨importer ++ ".bgl", 0, 0, 0, 0⟩⟩

/-- The answer that a source is found. -/
def foundAnswer (request : ImportResolutionRequest) (source : ResolvedSourceFacts) :
    ImportResolutionResponse :=
  .found ⟨request.importerPath, request.importOrder, request.requiredNamespace,
    [⟨source.path, true, source.normalized.sourceDigest⟩], some source.path⟩ source

def selfEntry : ResolvedSourceFacts := bareSource "a" [bareImport 0 "a" "a"]

def selfResolver : ImportResolver := fun request => foundAnswer request selfEntry

def twiceEntry : ResolvedSourceFacts :=
  bareSource "a" [bareImport 0 "a" "b", bareImport 1 "a" "b", bareImport 2 "a" "b"]

/-- One namespace is answered by a source, by another with its path and digest, and by an
interface. -/
def twiceResolver : ImportResolver := fun request =>
  if request.requiredNamespace = "c" then foundAnswer request (bareSource "c" [])
  else if request.importOrder = 0 then foundAnswer request (bareSource "b" [])
  else if request.importOrder = 1 then foundAnswer request (bareSource "b" [bareImport 0 "b" "c"])
  else
    .external ⟨request.importerPath, request.importOrder, request.requiredNamespace,
      [⟨"b.interface", true, "interface"⟩], some "b.interface"⟩ "interface"

def twiceState : SourceCollectionState :=
  ⟨[twiceEntry, bareSource "b" []], (edgesOf [twiceEntry]).map (receiptOf twiceResolver),
    (edgesOf [twiceEntry]).filterMap (externalOf twiceResolver)⟩

theorem twice_parsed (sha : Sha256) : ∃ closure,
    parseExplicitBundle sha ⟨twiceEntry.path, explicitFactSources twiceState⟩ = .parsed closure := by
  have hp : ((explicitFactSources twiceState).map ExplicitFactSource.path).Nodup := by
    decide
  have hn : ((explicitFactSources twiceState).map ExplicitFactSource.namespaceName).Nodup := by
    decide
  have hchk : ((explicitFactSources twiceState).all fun source =>
      sourceValid source (explicitFactSources twiceState)) = true := by decide
  rcases parseExplicitBundle_cases sha ⟨twiceEntry.path, explicitFactSources twiceState⟩ with
    ⟨-, os, -, -, -, hpa⟩ | ⟨ho, -⟩
  · exact ⟨_, hpa⟩
  have hv : ∀ source ∈ explicitFactSources twiceState,
      ValidSource (explicitFactSources twiceState) source := fun source hsrc =>
    (sourceValid_iff hn).mp (all_eq_true.mp hchk source hsrc)
  refine absurd ⟨by decide, hp, hn, hv, ?_, ?_⟩ ho
  · -- the entry imports the other source
    refine ⟨_, mem_cons_self, rfl, forall_mem_cons.mpr ⟨Relation.ReflTransGen.refl, ?_⟩⟩
    intro source hsrc
    obtain rfl := mem_singleton.mp hsrc
    refine Relation.ReflTransGen.single ⟨mem_cons_of_mem _ hsrc, bareImport 0 "a" "b", ?_, rfl⟩
    decide
  · rcases topologicalSources_cases hp hn hv with ⟨_, -, -, -, ha⟩ | ⟨hno, -⟩
    · exact ha
    · exact absurd hno (by decide)

theorem twice_run (sha : Sha256) : collectSourceFacts sha twiceEntry twiceResolver 3 =
    some (closeCollected sha twiceEntry twiceState) := rfl

theorem selfEntry_not_closed (sha : Sha256) : ∃ errors,
    parseExplicitBundle sha ⟨selfEntry.path, explicitFactSources
      ⟨[selfEntry], (edgesOf [selfEntry]).map (receiptOf selfResolver), []⟩⟩ = .rejected errors := by
  rcases parseExplicitBundle_cases sha ⟨selfEntry.path, explicitFactSources
    ⟨[selfEntry], (edgesOf [selfEntry]).map (receiptOf selfResolver), []⟩⟩ with
    ⟨hcloses, -⟩ | ⟨-, hrej⟩
  · refine absurd (Relation.TransGen.single ⟨mem_cons_self, bareImport 0 "a" "a", ?_, rfl⟩)
      (hcloses.acyclic _ mem_cons_self)
    decide
  · exact hrej

theorem self_run (sha : Sha256) : collectSourceFacts sha selfEntry selfResolver 2 =
    some (closeCollected sha selfEntry
      ⟨[selfEntry], (edgesOf [selfEntry]).map (receiptOf selfResolver), []⟩) := rfl

/-- An entry that imports itself fails though every import was answered; and two answers of one
path and digest are collected once, without what only the later imports, beside an interface
that another import of their namespace selects. -/
theorem collection_departs : ¬ ∃ sha : Sha256, ¬
    ((∃ code detail receipts, collectSourceFacts sha selfEntry selfResolver 2 =
        some (.rejected code detail receipts) ∧
      ∀ source, Reached selfResolver selfEntry source → ∀ edge ∈ source.imports,
        Answered selfResolver [selfEntry] (source, edge)) ∧
    ∃ collected, collectSourceFacts sha twiceEntry twiceResolver 3 = some (.collected collected) ∧
      (∃ source, Reached twiceResolver twiceEntry source ∧ source.raw ∉ collected.rawModules) ∧
      ∃ receipt ∈ collected.receipts, ∃ receipt' ∈ collected.receipts,
        receipt.requiredNamespace = receipt'.requiredNamespace ∧
        receipt.selectedPath ≠ receipt'.selectedPath) := by
  rintro ⟨sha, hnot⟩
  refine hnot ⟨?_, ?_⟩
  · obtain ⟨es, her⟩ := selfEntry_not_closed sha
    refine ⟨65, factErrorsDetail es, (edgesOf [selfEntry]).map (receiptOf selfResolver), ?_, ?_⟩
    · rw [self_run]
      unfold closeCollected closeSourceFacts
      rw [her]
    · have hs : ∀ source edge required, FoundBy selfResolver (source, edge) required →
          required = selfEntry := by
        rintro source edge required ⟨receipt, hans, -⟩
        exact (ImportResolutionResponse.found.inj hans).2.symm
      intro source hr edge he
      obtain rfl : source = selfEntry := by
        cases hr with
        | refl => rfl
        | tail _ hreq =>
          obtain ⟨e', -, fd⟩ := hreq
          exact hs _ _ _ fd
      obtain rfl := mem_singleton.mp he
      refine Or.inr ⟨selfEntry, ⟨_, rfl, by decide⟩, ?_⟩
      intro o ho _
      obtain rfl := mem_singleton.mp ho
      decide
  · obtain ⟨cl, hc⟩ := twice_parsed sha
    refine ⟨⟨cl, twiceState.sources.map ResolvedSourceFacts.raw, twiceState.receipts,
      twiceState.externalImports⟩, ?_, ⟨bareSource "c" [], ?_, ?_⟩, ?_⟩
    · rw [twice_run]
      unfold closeCollected closeSourceFacts
      rw [hc]
    · refine (Relation.ReflTransGen.single (b := bareSource "b" [bareImport 0 "b" "c"]) ?_).tail ?_
      · exact ⟨bareImport 1 "a" "b", by decide, _, rfl, by decide⟩
      · exact ⟨bareImport 0 "b" "c", by decide, _, rfl, by decide⟩
    · show (bareSource "c" []).raw ∉ twiceState.sources.map ResolvedSourceFacts.raw
      decide
    · exact ⟨_, mem_cons_self, _, mem_cons_of_mem _ (mem_cons_of_mem _
        mem_cons_self), by decide, by decide⟩

end Beagle.CompilerDriver
