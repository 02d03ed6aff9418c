/-
The tiles of a step do not meet.

A kernel that passes the obligation does nothing but compute, read its buffers and write one.  A
turn of a tile is therefore decided by the tile and by the buffers, which no turn changes, and what
it leaves behind is at most one element of the shadow, in the span of its tile.  The spans of two
tiles have no element in common, so the tiles get on as if each were alone.
-/
import Beagle.Native.Tiles

namespace Beagle.Tiles

open Beagle.Lib Beagle.Lib.Turns List
open Beagle.NativeCore (NativeId)
open Beagle.Layouts (LayoutDef TypeDef)
open Beagle.NativePrograms

/-! ### What a turn does -/

section

variable {W : Type}

/-- The storage with an element of the shadow written, if there is one. -/
def Storage.write (storage : Storage W) : Option (Int × BitVec 64) → Storage W
  | some (index, bits) => { storage with shadow := Function.update storage.shadow index (some bits) }
  | none => storage

@[simp] theorem Storage.write_buffers (st : Storage W) (w : Option (Int × BitVec 64)) :
    (st.write w).buffers = st.buffers := by
  cases w <;> rfl

@[simp] theorem Storage.write_world (st : Storage W) (w : Option (Int × BitVec 64)) :
    (st.write w).world = st.world := by
  cases w <;> rfl

/-- The element written is in the span of the access. -/
def Within (access : Access) (written : Option (Int × BitVec 64)) : Prop :=
  ∀ index bits, written = some (index, bits) → access.writeLo ≤ index ∧ index < access.writeHi

theorem within_none (acc : Access) : Within acc none := by
  intro index bs h
  simp at h

theorem Storage.write_shadow_of_notMem {acc : Access} {w : Option (Int × BitVec 64)}
    (h : Within acc w) (st : Storage W) {index : Int}
    (hidx : ¬(acc.writeLo ≤ index ∧ index < acc.writeHi)) :
    (st.write w).shadow index = st.shadow index := by
  cases w with
  | none => rfl
  | some e =>
    obtain ⟨other, bs⟩ := e
    have hne : index ≠ other := by
      rintro rfl
      exact hidx (h index bs rfl)
    simp [Storage.write, Function.update_of_ne hne]

/-- Whatever the storage holds besides its buffers, the computation gives this, and writes no more
than one element. -/
def Acts (access : Access) (buffers : List Buffer) {α : Type}
    (run : Storage W → Option (α × Storage W)) : Prop :=
  ∃ acted : Option (α × Option (Int × BitVec 64)), (∀ a ∈ acted, Within access a.2) ∧
    ∀ storage : Storage W, storage.buffers = buffers →
      run storage = acted.map fun a => (a.1, storage.write a.2)

theorem acts_read {acc : Access} {α : Type} (rd : List Buffer → Option α) (bus : List Buffer) :
    Acts (W := W) acc bus fun st => (rd st.buffers).map (·, st) := by
  refine ⟨(rd bus).map (·, none), ?_, ?_⟩
  · intro a ha
    obtain ⟨v, -, rfl⟩ := Option.map_eq_some_iff.mp ha
    exact within_none acc
  · rintro st rfl
    dsimp only
    cases rd st.buffers <;> rfl

variable {hos : Host W} {layouts : List LayoutDef} {kernel : FunctionDef} {acc : Access}
  {types : List TypeDef} {instruction : Instruction} {s c : NativeId}

theorem isScalar_of_valid (h : tileKernelInstructionValid types kernel instruction = true) :
    isScalar instruction.operation = true ∨
      (∃ s rg c, instruction.operation = .bufferLength s rg c) ∨
      (∃ s index rg c, instruction.operation = .bufferGetChecked s index rg c) ∨
      ∃ s index v rg c, instruction.operation = .bufferSetChecked s index v rg c := by
  unfold tileKernelInstructionValid at h
  cases hop : instruction.operation with
  | atom atom =>
    cases atom with
    | refAtom t => simp [hop] at h
    | _ => exact Or.inl rfl
  | bufferLength s rg c => exact Or.inr (Or.inl ⟨_, _, _, rfl⟩)
  | bufferGetChecked s index rg c =>
    exact Or.inr (Or.inr (Or.inl ⟨_, _, _, _, rfl⟩))
  | bufferSetChecked s index v rg c =>
    exact Or.inr (Or.inr (Or.inr ⟨_, _, _, _, _, rfl⟩))
  | _ => first | exact Or.inl rfl | simp [hop] at h

theorem execute_scalar (h : isScalar instruction.operation = true) (vs : Values) (st : Storage W) :
    execute hos layouts kernel acc instruction vs st =
      (scalarValue hos layouts kernel instruction vs).map (·, st) := by
  unfold execute
  cases hop : instruction.operation with
  | bufferLength | bufferGetChecked | bufferSetChecked => simp [hop, isScalar] at h
  | _ =>
    rw [hop] at h
    simp only [h, if_true]
    cases scalarValue hos layouts kernel instruction vs <;> rfl

theorem execute_bufferLength {rg : NativeId}
    (h : instruction.operation = .bufferLength s rg c) (vs : Values)
    (st : Storage W) :
    execute hos layouts kernel acc instruction vs st =
      ((vs.buffer s).bind (bufferLength acc st.buffers)).map (·, st) := by
  unfold execute
  rw [h]
  dsimp only
  cases vs.buffer s with
  | none => rfl
  | some h' =>
    show (bufferLength acc st.buffers h').bind _ = _
    cases hr : bufferLength acc st.buffers h' <;> simp [hr]

theorem execute_bufferGet {index rg : NativeId}
    (h : instruction.operation = .bufferGetChecked s index rg c) (vs : Values)
    (st : Storage W) :
    execute hos layouts kernel acc instruction vs st =
      ((vs.buffer s).bind fun h' => (vs.int index).bind fun p =>
        bufferAt acc st.buffers h' p.toInt).map (·, st) := by
  unfold execute
  rw [h]
  dsimp only
  cases vs.buffer s with
  | none => rfl
  | some h' =>
    cases vs.int index with
    | none => rfl
    | some p =>
      show (bufferAt acc st.buffers h' p.toInt).bind _ = _
      cases hr : bufferAt acc st.buffers h' p.toInt <;> simp [hr]

/-- The element that a set writes, where it is one of the buffer and of the span. -/
def settable (access : Access) (buffers : List Buffer) (handle : Nat) (index : Int)
    (bits : BitVec 64) : Option (Int × BitVec 64) :=
  match bufferRequire buffers handle access.owner with
  | some buffer =>
    if 0 ≤ index ∧ index < buffer.elements.length ∧ writeAllowed access handle index = true then
      some (index, bits)
    else none
  | none => none

theorem within_settable {bus : List Buffer} {h' : Nat} {index : Int} {bs : BitVec 64}
    {w : Int × BitVec 64} (h : settable acc bus h' index bs = some w) :
    h' = acc.next ∧ w = (index, bs) ∧ Within acc (some w) := by
  unfold settable at h
  cases hbuf : bufferRequire bus h' acc.owner with
  | none => simp [hbuf] at h
  | some b =>
    rw [hbuf] at h
    dsimp only at h
    split at h
    · next hall =>
      obtain rfl := Option.some.inj h
      have hs := Bool.and_eq_true_iff.mp hall.2.2
      refine ⟨(beq_iff_eq.mp hs.1).symm, rfl, fun o v hso => ?_⟩
      obtain ⟨rfl, rfl⟩ := Prod.mk.inj (Option.some.inj hso)
      simpa using hs.2
    · simp at h

theorem bufferSet_eq (st : Storage W) (h' : Nat) (index : Int) (bs : BitVec 64) :
    bufferSet acc st h' index bs = (settable acc st.buffers h' index bs).map fun w =>
        st.write (some w) := by
  unfold bufferSet settable
  cases bufferRequire st.buffers h' acc.owner with
  | none => rfl
  | some b =>
    dsimp only
    split <;> rfl

theorem execute_bufferSet {index v rg : NativeId}
    (h : instruction.operation = .bufferSetChecked s index v rg c)
    (vs : Values) (st : Storage W) :
    execute hos layouts kernel acc instruction vs st =
      ((vs.float v).bind fun bs => (vs.buffer s).bind fun h' =>
        (vs.int index).bind fun p =>
          (settable acc st.buffers h' p.toInt bs).map fun w =>
            (.float bs, st.write (some w))) := by
  unfold execute
  rw [h]
  dsimp only
  cases vs.float v with
  | none => rfl
  | some bs =>
    cases vs.buffer s with
    | none => rfl
    | some h' =>
      cases vs.int index with
      | none => rfl
      | some p =>
        show (bufferSet acc st h' p.toInt bs).bind _ = _
        rw [bufferSet_eq]
        cases hset : settable acc st.buffers h' p.toInt bs <;>
          simp [hset]

/-- **An instruction that a kernel may have is decided by the buffers.** -/
theorem execute_acts {instruction : Instruction}
    (hv : tileKernelInstructionValid types kernel instruction = true) (vs : Values)
    (bus : List Buffer) :
    Acts acc bus (execute hos layouts kernel acc instruction vs) := by
  rcases isScalar_of_valid hv with hs | ⟨s, rg, c, hop⟩ | ⟨s, index, rg, c, hop⟩ |
    ⟨s, index, value, rg, c, hop⟩
  · rw [funext (execute_scalar hs vs)]
    exact acts_read (fun _ => scalarValue hos layouts kernel instruction vs) bus
  · rw [funext (execute_bufferLength hop vs)]
    exact acts_read (fun bus => (vs.buffer s).bind (bufferLength acc bus)) bus
  · rw [funext (execute_bufferGet hop vs)]
    exact acts_read (fun bus => (vs.buffer s).bind fun h' =>
      (vs.int index).bind fun p => bufferAt acc bus h' p.toInt) bus
  · rw [funext (execute_bufferSet hop vs)]
    refine ⟨(vs.float value).bind fun bs => (vs.buffer s).bind fun h' =>
      (vs.int index).bind fun p =>
        (settable acc bus h' p.toInt bs).map fun w =>
          (.float bs, some w), ?_, ?_⟩
    · intro a ha
      simp only [Option.mem_def, Option.bind_eq_some_iff, Option.map_eq_some_iff] at ha
      obtain ⟨bs, -, h', -, p, -, w, hset, rfl⟩ := ha
      exact (within_settable hset).2.2
    · rintro st rfl
      cases vs.float value with
      | none => rfl
      | some bs =>
        cases vs.buffer s with
        | none => rfl
        | some h' =>
          cases vs.int index with
          | none => rfl
          | some p => simp [Function.comp_def]

/-! ### What the tile keeps -/

/-- The instructions that are left are ones that a kernel may have. -/
def Fits (types : List TypeDef) (kernel : FunctionDef) : Progress → Prop
  | .running frame =>
    ∀ instruction ∈ frame.instructions, tileKernelInstructionValid types kernel instruction = true
  | _ => True

variable (hleaf : tileKernelLeafValid types kernel = true)
include hleaf

theorem fits_of_block {b : BasicBlock} (hblk : b ∈ kernel.blocks)
    (hi : instruction ∈ b.instructions) :
    tileKernelInstructionValid types kernel instruction = true := by
  unfold tileKernelLeafValid at hleaf
  exact all_eq_true.mp (all_eq_true.mp hleaf b hblk) instruction hi

theorem fits_enterBlock (vs : Values) (bi : NativeId) (ars : List NativeId) :
    Fits types kernel (enterBlock kernel vs bi ars) := by
  unfold enterBlock
  cases hf : findBlock kernel.blocks bi with
  | none => exact True.intro
  | some b =>
    dsimp only
    cases passArguments vs b.parameters ars with
    | none => exact True.intro
    | some p =>
      intro instruction hi
      exact fits_of_block hleaf (mem_of_find?_eq_some hf) hi

theorem fits_terminate (vs : Values) (ts : List NativeCore.Terminator) :
    Fits types kernel (terminate layouts kernel vs ts) := by
  unfold terminate
  split
  · exact True.intro
  · split <;> exact True.intro
  · exact fits_enterBlock hleaf vs _ _
  · split
    · exact fits_enterBlock hleaf vs _ _
    · exact fits_enterBlock hleaf vs _ _
    · exact True.intro
  · split
    · split
      · exact fits_enterBlock hleaf vs _ _
      · exact True.intro
    · exact True.intro
  · exact True.intro
  · exact True.intro

omit hleaf

/-- **A turn of a tile is decided by the buffers, and writes an element of its span at most.** -/
theorem tileMove_acts (hleaf : tileKernelLeafValid types kernel = true) {pg : Progress}
    (hf : Fits types kernel pg) (bus : List Buffer) :
    ∃ w next, Within acc w ∧ Fits types kernel next ∧ ∀ st : Storage W, st.buffers = bus →
        tileMove hos layouts kernel acc st pg = (st.write w, next) := by
  cases pg with
  | returned => exact ⟨none, .returned, within_none acc, True.intro, fun _ _ => rfl⟩
  | trapped => exact ⟨none, .trapped, within_none acc, True.intro, fun _ _ => rfl⟩
  | running f =>
    obtain ⟨ins, ts, vs⟩ := f
    cases ins with
    | nil =>
      exact ⟨none, terminate layouts kernel vs ts, within_none acc,
        fits_terminate hleaf vs ts, fun _ _ => rfl⟩
    | cons instruction r =>
      have hv := hf instruction (by simp)
      obtain ⟨ac, hw, ha⟩ :=
        @execute_acts W hos layouts kernel acc types instruction hv vs bus
      have hm : ∀ st : Storage W, st.buffers = bus → tileMove hos layouts kernel acc st
              (.running ⟨instruction :: r, ts, vs⟩) =
            (ac.map fun a => (a.1, st.write a.2)).elim (st, .trapped) fun o => (o.2,
              .running ⟨r, ts, (instruction.result.id, o.1) :: vs⟩) := by
        intro st hb
        rw [← ha st hb]
        unfold tileMove
        dsimp only
        cases execute hos layouts kernel acc instruction vs st <;> rfl
      cases ac with
      | none => exact ⟨none, .trapped, within_none acc, True.intro, hm⟩
      | some a =>
        refine ⟨a.2, .running ⟨r, ts, (instruction.result.id, a.1) :: vs⟩, hw a rfl, ?_, hm⟩
        intro o ho
        exact hf o (by simp [ho])

end

/-! ### The spans of the tiles -/

/-- The index is in the span that the tile may write. -/
def Dispatch.Owns (dispatch : Dispatch) (tile : Nat) (index : Int) : Prop :=
  dispatch.writeLo tile ≤ index ∧ index < dispatch.writeHi tile

instance (dispatch : Dispatch) (tile : Nat) (index : Int) : Decidable (dispatch.Owns tile index) :=
  inferInstanceAs (Decidable (_ ∧ _))

theorem Dispatch.writeHi_le (dispatch : Dispatch) (tile : Nat) :
    dispatch.writeHi tile ≤ dispatch.writeLo tile + dispatch.step.tileWidth := by
  unfold writeHi
  split <;> omega

variable {index : Int}

/-- **The spans of two tiles have no element in common.** -/
theorem Dispatch.owns_unique {dispatch : Dispatch} (hwidth : 0 < dispatch.step.tileWidth)
    {i j : Nat} (hi : dispatch.Owns i index) (hj : dispatch.Owns j index) : i = j := by
  have hlt : ∀ {i j : Nat}, dispatch.Owns i index → dispatch.Owns j index → ¬i < j := by
    intro i j hi hj hij
    have hs : ((i : Int) + 1) * dispatch.step.tileWidth ≤ j * dispatch.step.tileWidth :=
      Int.mul_le_mul_of_nonneg_right (by exact_mod_cast hij) hwidth.le
    have hend := hi.2.trans_le (dispatch.writeHi_le i)
    have hst := hj.1
    unfold writeLo at hend hst
    rw [Int.add_mul, one_mul] at hs
    omega
  rcases Nat.lt_trichotomy i j with h | h | h
  · exact absurd h (hlt hi hj)
  · exact h
  · exact absurd h (hlt hj hi)

/-- Every element of the buffer is in the span of a tile. -/
theorem Dispatch.owned {dispatch : Dispatch} (hwidth : 0 < dispatch.step.tileWidth)
    (hidx : 0 ≤ index ∧ index < dispatch.length) :
    dispatch.Owns (index / dispatch.step.tileWidth).toNat index := by
  have ht : (((index / dispatch.step.tileWidth).toNat : Nat) : Int) =
      index / dispatch.step.tileWidth :=
    Int.toNat_of_nonneg (Int.ediv_nonneg hidx.1 hwidth.le)
  have hlo : dispatch.writeLo (index / dispatch.step.tileWidth).toNat ≤ index := by
    unfold writeLo
    rw [ht]
    exact Int.ediv_mul_le index hwidth.ne'
  have hhi := Int.lt_ediv_add_one_mul_self index hwidth
  refine ⟨hlo, ?_⟩
  unfold writeHi
  split
  · exact hidx.2
  · unfold writeLo
    rw [ht]
    rw [Int.add_mul, one_mul] at hhi
    exact hhi

/-! ### The tiles apart -/

section

variable {W : Type} {hos : Host W} {pr : NativeCoreProgram} {kernel : FunctionDef}
  {dispatch : Dispatch}

/-- What a tile sees: the buffers, the world, and the shadow in its span. -/
def tileView (dispatch : Dispatch) (tile : Nat) (storage : Storage W) :
    List Buffer × W × (Int → Option (BitVec 64)) :=
  (storage.buffers, storage.world,
    fun index => if dispatch.Owns tile index then storage.shadow index else none)

variable {tile : Nat}

theorem tileView_write {st st' : Storage W}
    (hv : tileView dispatch tile st = tileView dispatch tile st')
    (w : Option (Int × BitVec 64)) :
    tileView dispatch tile (st.write w) = tileView dispatch tile (st'.write w) := by
  simp only [tileView, Prod.mk.injEq] at hv
  obtain ⟨hb, hw, hs⟩ := hv
  simp only [tileView, Storage.write_buffers, Storage.write_world, hb, hw, Prod.mk.injEq, true_and]
  funext index
  have hidx := congrFun hs index
  by_cases ho : dispatch.Owns tile index
  · simp only [ho, if_true] at hidx ⊢
    cases w with
    | none => exact hidx
    | some e =>
      by_cases heq : index = e.1
      · simp [Storage.write, heq]
      · simp [Storage.write, Function.update_of_ne heq, hidx]
  · simp [ho]

theorem tileView_write_other (hwidth : 0 < dispatch.step.tileWidth) {i j : Nat} (hij : i ≠ j)
    {w : Option (Int × BitVec 64)} (hw : Within (dispatch.access i) w)
    (storage : Storage W) :
    tileView dispatch j (storage.write w) = tileView dispatch j storage := by
  simp only [tileView, Storage.write_buffers, Storage.write_world, Prod.mk.injEq, true_and]
  funext index
  by_cases ho : dispatch.Owns j index
  · have hnot : ¬dispatch.Owns i index := fun hi => hij (dispatch.owns_unique hwidth hi ho)
    simp only [ho, if_true]
    exact storage.write_shadow_of_notMem hw hnot
  · simp [ho]

/-- **The tiles of a step are apart.** -/
theorem tiles_apart (hos : Host W) (hleaf : tileKernelLeafValid pr.types kernel = true)
    (hwidth : 0 < dispatch.step.tileWidth) :
    (tileSystem hos pr kernel dispatch).Apart (tileView dispatch)
      (fun _ => Fits pr.types kernel) where
  stays tile storage progress hfits := by
    obtain ⟨w, next, -, hn, hm⟩ :=
      @tileMove_acts W hos pr.layouts kernel (dispatch.access tile) pr.types hleaf
        progress hfits storage.buffers
    show Fits pr.types kernel (tileMove _ _ _ _ storage progress).2
    rw [hm storage rfl]
    exact hn
  own tile storage storage' progress hfits hview := by
    obtain ⟨w, next, -, -, hm⟩ :=
      @tileMove_acts W hos pr.layouts kernel (dispatch.access tile) pr.types hleaf
        progress hfits storage.buffers
    have hb : storage'.buffers = storage.buffers := (congrArg (·.1) hview).symm
    show (tileMove _ _ _ _ storage progress).2 = (tileMove _ _ _ _ storage' progress).2 ∧
      tileView dispatch tile (tileMove _ _ _ _ storage progress).1 =
        tileView dispatch tile (tileMove _ _ _ _ storage' progress).1
    rw [hm storage rfl, hm storage' hb]
    exact ⟨rfl, tileView_write hview w⟩
  others i j storage progress hfits hij := by
    obtain ⟨w, next, hw, -, hm⟩ :=
      @tileMove_acts W hos pr.layouts kernel (dispatch.access i) pr.types hleaf
        progress hfits storage.buffers
    show tileView dispatch j (tileMove _ _ _ _ storage progress).1 = _
    rw [hm storage rfl]
    exact tileView_write_other hwidth hij hw storage

theorem tiles_rest : System.Rests (tileSystem hos pr kernel dispatch)
    fun pg => pg.resting = true := by
  intro tile st pg hr
  cases pg with
  | running f => simp [Progress.resting] at hr
  | returned | trapped => rfl

theorem fits_start (dispatch : Dispatch)
    (hleaf : tileKernelLeafValid pr.types kernel = true) (bus : List Buffer) (w : W)
    (tile : Nat) :
    Fits pr.types kernel ((tileStart kernel dispatch bus w).parts tile) := by
  show Fits pr.types kernel (if _ then _ else _)
  split
  · unfold Dispatch.start
    split
    · next hb =>
      intro instruction hi
      exact fits_of_block hleaf (by rw [hb]; simp) hi
    · exact True.intro
  · exact True.intro

/-! ### How a step ends -/

variable (hleaf : tileKernelLeafValid pr.types kernel = true)
  (hwidth : 0 < dispatch.step.tileWidth) {bus : List Buffer} {w : W}

/-- The tiles after the turns of a schedule. -/
def after (host : Host W) (program : NativeCoreProgram) (kernel : FunctionDef)
    (dispatch : Dispatch) (buffers : List Buffer) (world : W) (schedule : List Nat) :
    Turns.State Nat (Storage W) Progress :=
  (tileSystem host program kernel dispatch).run (tileStart kernel dispatch buffers world) schedule

theorem isTrapped_resting {pg : Progress} (h : pg.isTrapped = true) : pg.resting = true := by
  cases pg with
  | running f => simp [Progress.isTrapped] at h
  | returned | trapped => rfl

variable {f : Turns.State Nat (Storage W) Progress} {schedule schedule' : List Nat}

theorem settle_trapped (ht : tile < dispatch.tiles) (h : (f.parts tile).isTrapped = true) :
    settle dispatch f = .trapped := by
  unfold settle
  exact if_pos (any_eq_true.mpr ⟨f.parts tile, mem_map.mpr ⟨tile, List.mem_range.mpr ht, rfl⟩, h⟩)

/-- A step that is not unfinished has a trapped tile, or every tile has come to rest. -/
theorem trapped_or_resting (h : settle dispatch f ≠ .unfinished) :
    (∃ tile < dispatch.tiles, (f.parts tile).isTrapped = true) ∨
      ∀ tile < dispatch.tiles, (f.parts tile).resting = true := by
  unfold settle at h
  dsimp only at h
  by_cases ht : ((List.range dispatch.tiles).map f.parts).any Progress.isTrapped = true
  · left
    obtain ⟨pg, hmem, hp⟩ := any_eq_true.mp ht
    obtain ⟨tile, hti, rfl⟩ := mem_map.mp hmem
    exact ⟨tile, List.mem_range.mp hti, hp⟩
  · right
    intro tile hti
    rw [if_neg ht] at h
    by_contra hr
    refine h (if_pos ?_)
    rw [Bool.not_eq_true', ← Bool.not_eq_true]
    intro hall
    exact hr (all_eq_true.mp hall _ (mem_map.mpr ⟨tile, List.mem_range.mpr hti, rfl⟩))

theorem start_parts_of_le (h : dispatch.tiles ≤ tile) :
    (tileStart kernel dispatch bus w).parts tile = .returned :=
  if_neg (Nat.not_lt.mpr h)

include hleaf hwidth in
/-- Tiles that the step does not have rest from the start. -/
theorem after_parts_of_le (h : dispatch.tiles ≤ tile) (schedule : List Nat) :
    ((after hos pr kernel dispatch bus w schedule).parts tile).resting = true := by
  have hst : (((tileSystem hos pr kernel dispatch).run
      (tileStart kernel dispatch bus w) []).parts tile).resting = true := by
    rw [System.run, foldl_nil, start_parts_of_le h]
    rfl
  have hcnt : List.count tile [] ≤ schedule.count tile := Nat.zero_le _
  have hk := (tiles_apart hos hleaf hwidth).run_resting tiles_rest
    (fits_start dispatch hleaf bus w) hst hcnt
  unfold after
  rw [hk.1]
  exact hst

theorem covered_congr {s shadow' : Int → Option (BitVec 64)} {n : Int}
    (h : ∀ index, 0 ≤ index ∧ index < n → s index = shadow' index) :
    covered n s = covered n shadow' := by
  unfold covered
  have hl : ∀ ins : List Nat, (∀ index ∈ ins, (index : Int) < n) →
      ins.mapM (fun index : Nat => s index) = ins.mapM fun index : Nat => shadow' index := by
    intro ins hi
    induction ins with
    | nil => rfl
    | cons index r ih =>
      rw [mapM_cons, mapM_cons, h index ⟨by omega, hi index (by simp)⟩,
        ih fun o ho => hi o (by simp [ho])]
  refine hl _ fun index hidx => ?_
  have hlt := List.mem_range.mp hidx
  omega

/-- Ends of runs that agree on every tile and on what every tile sees settle alike. -/
theorem settle_congr (hwidth : 0 < dispatch.step.tileWidth)
    {f' : Turns.State Nat (Storage W) Progress}
    (h : ∀ tile, f'.parts tile = f.parts tile ∧
      tileView dispatch tile f'.store = tileView dispatch tile f.store) :
    settle dispatch f' = settle dispatch f := by
  have hp : f'.parts = f.parts := funext fun tile => (h tile).1
  have hv := (h 0).2
  simp only [tileView, Prod.mk.injEq] at hv
  have hcov : covered dispatch.length f'.store.shadow = covered dispatch.length f.store.shadow := by
    refine covered_congr fun index hidx => ?_
    have ho := dispatch.owned hwidth hidx
    have hs := congrFun (congrArg (·.2.2) (h (index / dispatch.step.tileWidth).toNat).2) index
    simpa [tileView, ho] using hs
  unfold settle
  rw [hp, hv.1, hv.2.1, hcov]

include hleaf hwidth in
/-- **A finished step is finished the same way by every schedule that gives each tile as many
turns.** -/
theorem settle_of_counts
    (h : settle dispatch (after hos pr kernel dispatch bus w schedule) ≠ .unfinished)
    (hcnt : ∀ tile, schedule.count tile ≤ schedule'.count tile) :
    settle dispatch (after hos pr kernel dispatch bus w schedule') =
      settle dispatch (after hos pr kernel dispatch bus w schedule) := by
  have ha := tiles_apart hos hleaf hwidth
  have hf := fits_start dispatch hleaf bus w
  rcases trapped_or_resting h with ⟨tile, hti, ht⟩ | hrest
  · have hk := ha.run_resting tiles_rest hf (isTrapped_resting ht) (hcnt tile)
    have ht' := ht
    unfold after at ht'
    rw [← hk.1] at ht'
    rw [settle_trapped hti ht]
    exact settle_trapped hti ht'
  · refine settle_congr hwidth fun tile => ?_
    by_cases hti : tile < dispatch.tiles
    · exact ha.run_resting tiles_rest hf (hrest tile hti) (hcnt tile)
    · exact ha.run_resting tiles_rest hf
        (after_parts_of_le hleaf hwidth (Nat.not_lt.mp hti) schedule) (hcnt tile)

include hleaf hwidth in
/-- A trapped tile and a finished schedule: the schedule ends in a trap. -/
theorem settle_trapped_of_trapped (hti : tile < dispatch.tiles)
    (ht : ((after hos pr kernel dispatch bus w schedule).parts tile).isTrapped =
      true) (h : settle dispatch (after hos pr kernel dispatch bus w schedule') ≠
      .unfinished) :
    settle dispatch (after hos pr kernel dispatch bus w schedule') = .trapped := by
  rcases trapped_or_resting h with ⟨o, ho, hf⟩ | hrest
  · exact settle_trapped ho hf
  · have hs := (tiles_apart hos hleaf hwidth).resting_unique tiles_rest
      (fits_start dispatch hleaf bus w) (isTrapped_resting ht)
      (hrest tile hti)
    refine settle_trapped hti ?_
    unfold after
    rw [hs.1]
    exact ht

include hleaf hwidth in
/-- **Two schedules that finish the step finish it the same way.** -/
theorem settle_unique
    (h : settle dispatch (after hos pr kernel dispatch bus w schedule) ≠ .unfinished)
    (h' : settle dispatch (after hos pr kernel dispatch bus w schedule') ≠ .unfinished) :
    settle dispatch (after hos pr kernel dispatch bus w schedule') =
      settle dispatch (after hos pr kernel dispatch bus w schedule) := by
  rcases trapped_or_resting h with ⟨tile, hti, ht⟩ | hrest
  · rw [settle_trapped hti ht]
    exact settle_trapped_of_trapped hleaf hwidth hti ht h'
  · rcases trapped_or_resting h' with ⟨tile, hti, ht⟩ | hrest'
    · rw [settle_trapped hti ht]
      exact (settle_trapped_of_trapped hleaf hwidth hti ht h).symm
    · refine settle_congr hwidth fun tile => ?_
      have ha := tiles_apart hos hleaf hwidth
      have hf := fits_start dispatch hleaf bus w
      by_cases hti : tile < dispatch.tiles
      · exact ha.resting_unique tiles_rest hf (hrest tile hti) (hrest' tile hti)
      · exact ha.resting_unique tiles_rest hf
          (after_parts_of_le hleaf hwidth (Nat.not_lt.mp hti) schedule)
          (after_parts_of_le hleaf hwidth (Nat.not_lt.mp hti) schedule')

end

/-! ### What the tiles touch -/

theorem current_of_bufferAt {acc : Access} {bus : List Buffer} {h' : Nat} {v : Value}
    (h : bufferAt acc bus h' index = some v) : h' = acc.current := by
  unfold bufferAt at h
  cases hbuf : bufferRequire bus h' acc.owner with
  | none => simp [hbuf] at h
  | some b =>
    rw [hbuf] at h
    dsimp only at h
    split at h
    · next hall =>
      have hs := Bool.and_eq_true_iff.mp hall.2.2
      exact (beq_iff_eq.mp hs.1).symm
    · simp at h

section

variable {W : Type} {hos : Host W} {pr : NativeCoreProgram} {kernel : FunctionDef}
  {dispatch : Dispatch}

/-- A tile writes elements of its span of the next buffer, and reads elements of the current
one. -/
structure Proper (dispatch : Dispatch) (tile : Nat) (touch : Touch) : Prop where
  write : touch.writes = true → touch.handle = dispatch.next ∧ dispatch.Owns tile touch.index
  read : touch.writes = false → touch.handle = dispatch.current

variable {tile : Nat} {touch : Touch}

theorem proper_of_execute {instruction : Instruction} {vs : Values} {st : Storage W}
    {res : Value × Storage W}
    (hrun : execute hos pr.layouts kernel (dispatch.access tile) instruction vs st =
      some res) (ht : touched vs instruction.operation = some touch) :
    Proper dispatch tile touch := by
  unfold touched at ht
  split at ht
  · next s index rg c hop =>
    rw [execute_bufferGet hop] at hrun
    simp only [Option.map_eq_some_iff, Option.bind_eq_some_iff] at hrun
    obtain ⟨v, ⟨h', hh, p, hpos, hr⟩, -⟩ := hrun
    rw [hh, hpos] at ht
    obtain rfl := Option.some.inj ht
    exact ⟨fun h => by simp at h, fun _ => current_of_bufferAt hr⟩
  · next s index v rg c hop =>
    rw [execute_bufferSet hop] at hrun
    simp only [Option.map_eq_some_iff, Option.bind_eq_some_iff] at hrun
    obtain ⟨bs, -, h', hh, p, hpos, w, hset, -⟩ := hrun
    rw [hh, hpos] at ht
    obtain rfl := Option.some.inj ht
    obtain ⟨hn, rfl, hw⟩ := within_settable hset
    exact ⟨fun _ => ⟨hn, hw _ _ rfl⟩, fun h => by simp at h⟩
  · simp at ht

variable {st : Turns.State Nat (Storage W) Progress}

theorem proper_touchedBy
    (h : touchedBy hos pr kernel dispatch st tile = some touch) :
    Proper dispatch tile touch := by
  unfold touchedBy at h
  split at h
  · next instruction r ts vs hp =>
    cases hrun : execute hos pr.layouts kernel (dispatch.access tile) instruction vs st.store with
    | none => simp [hrun] at h
    | some res =>
      rw [hrun] at h
      exact proper_of_execute hrun h
  · simp at h

theorem proper_touches {schedule : List Nat}
    (h : (tile, touch) ∈ touches hos pr kernel dispatch st schedule) :
    Proper dispatch tile touch := by
  induction schedule generalizing st with
  | nil => simp [touches] at h
  | cons next r ih =>
    unfold touches at h
    rcases List.mem_append.mp h with hnow | hlater
    · rw [Option.mem_toList, Option.map_eq_some_iff] at hnow
      obtain ⟨fd, hf, hp⟩ := hnow
      obtain ⟨rfl, rfl⟩ := Prod.mk.inj hp
      exact proper_touchedBy hf
    · exact ih hlater

/-- **What one tile writes no other tile reads or writes.** -/
theorem Proper.apart (hwidth : 0 < dispatch.step.tileWidth) (hb : dispatch.current ≠ dispatch.next)
    {i j : Nat} (hij : i ≠ j) {t o : Touch} (h : Proper dispatch i t)
    (ho : Proper dispatch j o) (hw : t.writes = true) :
    ¬(t.handle = o.handle ∧ t.index = o.index) := by
  rintro ⟨hh, hidx⟩
  obtain ⟨hn, how⟩ := h.write hw
  cases hk : o.writes with
  | true => exact hij (dispatch.owns_unique hwidth how (hidx ▸ (ho.write hk).2))
  | false => exact hb ((ho.read hk).symm.trans (hh.symm.trans hn))

end

/-! ### Programs that pass -/

variable {step : TiledStep}

/-- What the obligation says of a tiled step. -/
theorem kernel_of_passes {pr : NativeCoreProgram}
    (hp : deterministicParallelism pr = none) {o : FunctionDef}
    (ho : o ∈ pr.functions) {b : BasicBlock} (hblk : b ∈ o.blocks)
    {instruction : Instruction} (hi : instruction ∈ b.instructions)
    (hs : instruction.operation = .tiledStepF64 step) :
    ∃ kernel, findFunction pr.functions step.kernelId = some kernel ∧
      tileKernelLeafValid pr.types kernel = true := by
  unfold deterministicParallelism at hp
  rw [Option.map_eq_none_iff, find?_eq_none] at hp
  have hfn := hp o ho
  rw [Bool.not_eq_true, Bool.not_eq_false'] at hfn
  have hv := all_eq_true.mp (all_eq_true.mp hfn b hblk) instruction hi
  unfold parallelInstructionValid at hv
  rw [hs] at hv
  dsimp only at hv
  cases hf : findFunction pr.functions step.kernelId with
  | none => simp [hf] at hv
  | some kernel =>
    rw [hf] at hv
    simp only [Bool.and_eq_true] at hv
    exact ⟨kernel, rfl, hv.2.1.1.2⟩

theorem dispatch?_some {bus : List Buffer} {c next o : Nat}
    {dispatch : Dispatch} (h : dispatch? bus step c next o = some dispatch) :
    0 < dispatch.step.tileWidth ∧ dispatch.current ≠ dispatch.next := by
  unfold dispatch? at h
  split at h
  · dsimp only at h
    split at h
    · simp at h
    · next hv =>
      obtain rfl := Option.some.inj h
      simp only [not_or, Int.not_le] at hv
      exact ⟨hv.2.2.1, hv.2.2.2.2.2.1⟩
  · simp at h

/--
**A tiled step of a program that passes is deterministic.**  Schedules that finish it finish it
alike, with the same result, buffers and world, and so does every schedule with no fewer turns for
any tile.  No tile touches an element that another tile writes.
-/
theorem tiled_step_deterministic {program : NativeCoreProgram}
    (hpass : deterministicParallelism program = none) {owner : FunctionDef}
    (howner : owner ∈ program.functions) {block : BasicBlock} (hblock : block ∈ owner.blocks)
    {instruction : Instruction} (hinstruction : instruction ∈ block.instructions) {step : TiledStep}
    (hstep : instruction.operation = .tiledStepF64 step) :
    ∃ kernel, findFunction program.functions step.kernelId = some kernel ∧
      ∀ {W : Type} (host : Host W) (current next capability : Nat) (cancelled : Bool)
        (buffers : List Buffer) (world : W),
        (∀ schedule schedule',
          tiledStep host program kernel step current next capability cancelled buffers world
              schedule ≠ .unfinished →
            (tiledStep host program kernel step current next capability cancelled buffers world
                schedule' ≠ .unfinished ∨ ∀ tile, schedule.count tile ≤ schedule'.count tile) →
              tiledStep host program kernel step current next capability cancelled buffers world
                  schedule' =
                tiledStep host program kernel step current next capability cancelled buffers world
                  schedule) ∧
        ∀ dispatch, dispatch? buffers step current next capability = some dispatch →
          ∀ schedule, ∀ entry ∈ touches host program kernel dispatch
              (tileStart kernel dispatch buffers world) schedule,
            ∀ other ∈ touches host program kernel dispatch
                (tileStart kernel dispatch buffers world) schedule,
              entry.1 ≠ other.1 → entry.2.writes = true →
                ¬(entry.2.handle = other.2.handle ∧ entry.2.index = other.2.index) := by
  obtain ⟨kernel, hk, hleaf⟩ := kernel_of_passes hpass howner hblock hinstruction hstep
  refine ⟨kernel, hk, fun host current next capability cancelled buffers world => ⟨?_, ?_⟩⟩
  · intro schedule schedule' hdo hd'
    unfold tiledStep at hdo hd' ⊢
    cases hd : dispatch? buffers step current next capability with
    | none => rfl
    | some dispatch =>
      rw [hd] at hdo hd'
      cases cancelled with
      | true => rfl
      | false =>
        have hwidth := (dispatch?_some hd).1
        rcases hd' with hd' | hcnt
        · exact settle_unique hleaf hwidth hdo hd'
        · exact settle_of_counts hleaf hwidth hdo hcnt
  · intro dispatch hd schedule entry hent other ho hne hw
    obtain ⟨hwidth, hb⟩ := dispatch?_some hd
    exact (proper_touches hent).apart hwidth hb hne (proper_touches ho) hw

/-! A kernel that copies the first element of its tile. -/

def copyKernel : FunctionDef where
  id := ⟨"copy"⟩
  parameters := [⟨⟨"current"⟩, ⟨"buffer"⟩⟩, ⟨⟨"next"⟩, ⟨"buffer"⟩⟩, ⟨⟨"tile"⟩, ⟨"int"⟩⟩,
    ⟨⟨"lo"⟩, ⟨"int"⟩⟩, ⟨⟨"hi"⟩, ⟨"int"⟩⟩]
  blocks := [⟨⟨"body"⟩, [],
    [⟨⟨⟨"element"⟩, ⟨"float"⟩⟩, .bufferGetChecked ⟨"current"⟩ ⟨"lo"⟩ ⟨"root"⟩ ⟨"read"⟩⟩,
      ⟨⟨⟨"copied"⟩, ⟨"float"⟩⟩, .bufferSetChecked ⟨"next"⟩ ⟨"lo"⟩ ⟨"element"⟩ ⟨"root"⟩ ⟨"write"⟩⟩],
    [.returns (some ⟨"copied"⟩)]⟩]
  returnType := some ⟨"unit"⟩
  effects := []
  regions := []
  capabilities := []

def copyStep : TiledStep :=
  ⟨⟨"from"⟩, ⟨"to"⟩, 1, 0, 0, .bounded, ⟨"copy"⟩, ⟨"root"⟩, ⟨"read"⟩, ⟨"write"⟩⟩

def copyOwner : FunctionDef where
  id := ⟨"main"⟩
  parameters := [⟨⟨"from"⟩, ⟨"buffer"⟩⟩, ⟨⟨"to"⟩, ⟨"buffer"⟩⟩]
  blocks := [⟨⟨"start"⟩, [], [⟨⟨⟨"stepped"⟩, ⟨"bool"⟩⟩, .tiledStepF64 copyStep⟩],
    [.returns (some ⟨"stepped"⟩)]⟩]
  returnType := some ⟨"bool"⟩
  effects := []
  regions := [⟨"root"⟩]
  capabilities := [⟨"read"⟩, ⟨"write"⟩]

def copyProgram : NativeCoreProgram where
  types := [⟨⟨"float"⟩, "F64", .atomType .f64Kind⟩, ⟨⟨"int"⟩, "I64", .atomType .i64Kind⟩,
    ⟨⟨"bool"⟩, "Bool", .atomType .boolKind⟩, ⟨⟨"buffer"⟩, "Buffer", .bufferType ⟨"float"⟩⟩,
    ⟨⟨"unit"⟩, "Unit", .unionType []⟩]
  effects := []
  regions := [⟨⟨"root"⟩, .arenaRegion, none⟩]
  capabilities := [⟨⟨"read"⟩, .readCapability, some ⟨"root"⟩⟩,
    ⟨⟨"write"⟩, .writeCapability, some ⟨"root"⟩⟩]
  layouts := []
  functions := [copyOwner, copyKernel]
  abis := []

/-- A host that computes nothing. -/
def stillHost : Host Unit where
  add left _ := left
  sub left _ := left
  mul left _ := left
  div left _ := left
  isZero _ := false
  ofInt _ := 0
  toInt _ := none
  eq _ _ := false
  lt _ _ := false
  le _ _ := false
  foreign _ _ _ := none

theorem copied_in_turns :
    tiledStep stillHost copyProgram copyKernel copyStep 0 1 7 false [⟨7, [5, 6]⟩, ⟨7, [0, 0]⟩] ()
      [1, 0, 0, 1, 0, 1] = .done true [⟨7, [5, 6]⟩, ⟨7, [5, 6]⟩] () := by
  obtain ⟨kernel, hk, hs⟩ := @tiled_step_deterministic copyProgram rfl copyOwner
    (by simp [copyProgram]) _ (mem_singleton.mpr rfl) _ (mem_singleton.mpr rfl) copyStep rfl
  obtain rfl : copyKernel = kernel := Option.some.inj hk
  have hrow : tiledStep stillHost copyProgram copyKernel copyStep 0 1 7 false
      [⟨7, [5, 6]⟩, ⟨7, [0, 0]⟩] () [0, 0, 0, 1, 1, 1] =
        .done true [⟨7, [5, 6]⟩, ⟨7, [5, 6]⟩] () := rfl
  rw [← hrow]
  have hp : Perm [0, 0, 0, 1, 1, 1] [1, 0, 0, 1, 0, 1] := by decide
  exact (hs stillHost 0 1 7 false _ ()).1 _ _ (by rw [hrow]; simp)
    (Or.inr fun tile => (hp.count_eq tile).le)

end Beagle.Tiles
