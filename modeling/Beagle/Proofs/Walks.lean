/-
Walks over cells, and the readers that stop at their first error.

A walk over cells agrees with the reader that stops at its first error: where the
reader gives a value the walk gives the same and leaves its error cell empty, and
where the reader fails the walk ends with that error.  So with pushes and the encoder.
And whatever a walk meets, it ends inside its bytes.
-/
import Beagle.Proofs.Wire
import Beagle.Store.CodecCells

namespace Beagle.Store

open Beagle.Lib Beagle.Lib.Reader List

/-! ### Walks keep inside their bytes -/

/-- A decoder later in a walk: it is between its position and its limit, and keeps its error. -/
structure Moves (before after : Cells.Decoder) : Prop where
  bytes : after.bytes = before.bytes
  limit : after.limit = before.limit
  forward : before.position ≤ after.position
  inside : before.position ≤ before.limit → after.position ≤ after.limit
  error : ∀ message, before.error = some message → after.error = some message

theorem Moves.refl (decoder : Cells.Decoder) : Moves decoder decoder :=
  ⟨rfl, rfl, Nat.le_refl _, id, fun _ => id⟩

theorem Moves.trans {before middle after : Cells.Decoder} (h : Moves before middle)
    (h' : Moves middle after) : Moves before after :=
  ⟨h'.bytes.trans h.bytes, h'.limit.trans h.limit, Nat.le_trans h.forward h'.forward,
    fun hle => h'.inside (h.inside hle), fun _ hcell => h'.error _ (h.error _ hcell)⟩

/-- Whatever it meets, the walk keeps inside the bytes. -/
def Keeps {α : Type} (walk : Cells.Walk α) : Prop := ∀ decoder, Moves decoder (walk decoder).2

namespace Keeps

variable {α γ : Type}

theorem pure (a : α) : Keeps (Pure.pure a) := Moves.refl

theorem bind {w : Cells.Walk α} {next : α → Cells.Walk γ} (h : Keeps w)
    (hn : ∀ a, Keeps (next a)) : Keeps (w >>= next) :=
  fun decoder => (h decoder).trans (hn _ _)

theorem ite {c : Prop} [Decidable c] {w w' : Cells.Walk α} (h : Keeps w)
    (h' : Keeps w') : Keeps (if c then w else w') := by
  by_cases hc : c
  · rw [if_pos hc]
    exact h
  · rw [if_neg hc]
    exact h'

theorem decoderError (m : String) : Keeps (Cells.decoderError m) := by
  intro decoder
  refine ⟨rfl, rfl, Nat.le_refl _, id, ?_⟩
  intro m' hc
  show decoder.error.or (some m) = some m'
  rw [hc]
  rfl

/-- An error, and something given back in place of a value. -/
theorem gaveUp (m : String) (a : α) : Keeps (do Cells.decoderError m; Pure.pure a) :=
  (decoderError m).bind fun _ => pure a

end Keeps

theorem Cells.decoderError_clean {decoder : Cells.Decoder} (h : decoder.error = none)
    (message : String) : (Cells.decoderError message decoder).2.error = some message := by
  show decoder.error.or (some message) = some message
  rw [h]
  rfl

theorem Cells.run_bind {α γ : Type} (w : Cells.Walk α) (next : α → Cells.Walk γ)
    (decoder : Cells.Decoder) :
    (w >>= next) decoder = next (w decoder).1 (w decoder).2 := rfl

theorem ensureBytes_eq (a : Nat) (ctx : String) (decoder : Cells.Decoder) :
    Cells.ensureBytes a ctx decoder = if decoder.position + a ≤ decoder.limit then (true, decoder)
        else (false, (Cells.decoderError ("Store RPC ended inside " ++ ctx) decoder).2) := by
  unfold Cells.ensureBytes Cells.decoderRemaining
  by_cases h : decoder.position + a ≤ decoder.limit
  · rw [if_pos h, if_pos (by omega)]
  · rw [if_neg h, if_neg (by omega)]

theorem readU8_eq (ctx : String) (decoder : Cells.Decoder) : Cells.readU8 ctx decoder
      = if decoder.position < decoder.limit then Cells.nextByte decoder
        else (0, (Cells.decoderError ("Store RPC ended inside " ++ ctx) decoder).2) := by
  have hens := ensureBytes_eq 1 ctx decoder
  unfold Cells.readU8
  rw [Cells.run_bind]
  by_cases h : decoder.position < decoder.limit
  · rw [if_pos (show decoder.position + 1 ≤ decoder.limit from h)] at hens
    rw [hens, if_pos h]
    rfl
  · rw [if_neg (show ¬decoder.position + 1 ≤ decoder.limit from h)] at hens
    rw [hens, if_neg h]
    rfl

theorem keeps_readU8 (ctx : String) : Keeps (Cells.readU8 ctx) := by
  intro decoder
  rw [readU8_eq]
  by_cases h : decoder.position < decoder.limit
  · rw [if_pos h]
    exact ⟨rfl, rfl, Nat.le_succ _, fun _ => h, fun _ => id⟩
  · rw [if_neg h]
    exact Keeps.decoderError _ decoder

theorem keeps_readLeFrom (ctx : String) (w : Nat) :
    ∀ off v, Keeps (Cells.readLeFrom ctx w off v) := by
  induction w with
  | zero => intro off v; exact Keeps.pure v
  | succ w ih => intro off v; exact (keeps_readU8 ctx).bind fun _ => ih _ _

theorem keeps_readU32Le (ctx : String) : Keeps (Cells.readU32Le ctx) :=
  (keeps_readLeFrom ctx 4 0 0).bind fun _ => Keeps.pure _

theorem keeps_readI64Le (ctx : String) : Keeps (Cells.readI64Le ctx) :=
  (keeps_readLeFrom ctx 8 0 0).bind fun _ => Keeps.pure _

theorem keeps_readPast (lea w : Nat) (l : String) : Keeps (Cells.readPast lea w l) :=
  Keeps.ite (keeps_readU8 l) (Keeps.pure 0)

theorem keeps_readScalar (l : String) (s : Nat) : Keeps (Cells.readScalar l s) := by
  intro decoder
  have hinv := Keeps.decoderError (l ++ " is not valid UTF-8")
  unfold Cells.readScalar
  dsimp only
  split
  · exact (keeps_readU8 l decoder).trans (hinv _)
  · split
    · refine (keeps_readU8 l decoder).trans ?_
      exact ((keeps_readPast 1 _ _ _).trans (keeps_readPast 2 _ _ _)).trans (keeps_readPast 3 _ _ _)
    · refine ((keeps_readU8 l decoder).trans ?_).trans (hinv _)
      exact ((keeps_readPast 1 _ _ _).trans (keeps_readPast 2 _ _ _)).trans (keeps_readPast 3 _ _ _)

theorem keeps_readScalars (l : String) (st s ts : Nat) : Keeps (Cells.readScalars l st s ts) := by
  induction ts with
  | zero => exact Keeps.pure ""
  | succ ts ih =>
    intro decoder
    have hs := keeps_readScalar l s decoder
    unfold Cells.readScalars
    by_cases hend : decoder.position ≥ s
    · rw [if_pos hend]
      exact Moves.refl decoder
    · rw [if_neg hend]
      by_cases hv : (Cells.readScalar l s decoder).1 = true
      · rw [if_pos hv]
        exact hs.trans (ih _)
      · rw [if_neg hv]
        exact hs

theorem keeps_ensureBytes (a : Nat) (ctx : String) : Keeps (Cells.ensureBytes a ctx) := by
  intro decoder
  rw [ensureBytes_eq]
  by_cases h : decoder.position + a ≤ decoder.limit
  · rw [if_pos h]
    exact Moves.refl decoder
  · rw [if_neg h]
    exact Keeps.decoderError _ decoder

theorem keeps_readUtf8 (n : Nat) (l : String) : Keeps (Cells.readUtf8 n l) := by
  refine (keeps_ensureBytes n l).bind fun here => ?_
  cases here with
  | true => exact fun _ => keeps_readScalars _ _ _ _ _
  | false => exact Keeps.pure ""

theorem keeps_readSizedText (m : Nat) (l : String) : Keeps (Cells.readSizedText m l) :=
  (keeps_readU32Le l).bind fun n =>
    Keeps.ite (Keeps.gaveUp _ "") (keeps_readUtf8 n l)

theorem keeps_countNode : Keeps Cells.countNode :=
  fun _ => ⟨rfl, rfl, Nat.le_refl _, id, fun _ => id⟩

theorem keeps_decoderNodeLimited (d mn md : Nat) : Keeps (Cells.decoderNodeLimited d mn md) :=
  Keeps.ite (Keeps.gaveUp _ false)
    (keeps_countNode.bind fun _ => Keeps.ite (Keeps.gaveUp _ false) (Keeps.pure true))

theorem keeps_readTagged (msb : Nat) {c : Cells.Walk Term} (h : Keeps c) :
    Keeps (Cells.readTagged msb c) := by
  refine (keeps_readU8 _).bind fun tag => ?_
  split
  · exact (keeps_readSizedText _ _).bind fun _ => Keeps.pure _
  · exact (keeps_readI64Le _).bind fun _ => Keeps.pure _
  · exact (keeps_readI64Le _).bind fun _ => Keeps.pure _
  · exact Keeps.pure _
  · exact Keeps.pure _
  · exact (keeps_readSizedText _ _).bind fun _ => Keeps.ite (Keeps.gaveUp _ _) (Keeps.pure _)
  · exact h.bind fun _ => h.bind fun _ => h.bind fun _ => Keeps.pure _
  · refine (keeps_readI64Le _).bind fun ss => (keeps_readU32Le _).bind fun ns => ?_
    split
    · exact Keeps.pure _
    · exact Keeps.gaveUp _ _
  · exact Keeps.gaveUp _ _

/-- **Reading a Term ends inside the bytes, whatever they are.** -/
theorem keeps_readTermLimited (msb mn md d : Nat) : Keeps (Cells.readTermLimited msb mn md d) := by
  induction hm : md + 1 - d using Nat.strongRecOn generalizing d with
  | ind m ih =>
    rw [Cells.readTermLimited]
    refine (keeps_decoderNodeLimited _ _ _).bind fun n => ?_
    by_cases hle : d ≤ md
    · rw [if_pos hle]
      refine Keeps.ite (keeps_readTagged _ ?_) (Keeps.pure _)
      exact ih _ (by omega) (d + 1) rfl
    · rw [if_neg hle]
      exact Keeps.pure _

/-! ### Walks agree with readers -/

/-- The decoder is clean, and the input is what it has from its position to its limit. -/
structure Sees (decoder : Cells.Decoder) (input : Input UInt8 (Decoder Unit)) : Prop where
  clean : decoder.error = none
  ahead : decoder.position ≤ decoder.limit
  inside : decoder.limit ≤ decoder.bytes.length
  rest : input.rest = (decoder.bytes.take decoder.limit).drop decoder.position
  nodes : input.state.nodes = decoder.nodes

/-- The walk goes where the reader goes, and has its error where that fails. -/
structure Agrees {α : Type} (walk : Cells.Walk α) (read : Decode Unit α) : Prop where
  keeps : Keeps walk
  ok : ∀ {decoder input a out}, Sees decoder input → read input = .ok (a, out) →
    (walk decoder).1 = a ∧ Sees (walk decoder).2 out
  error : ∀ {decoder input failure}, Sees decoder input → read input = .error failure →
    ∃ message, failure = .error message ∧ (walk decoder).2.error = some message

namespace Agrees

variable {α γ : Type}

theorem pure (a : α) : Agrees (Pure.pure a) (Pure.pure a) where
  keeps := Keeps.pure a
  ok hsees hread := by
    cases hread
    exact ⟨rfl, hsees⟩
  error _ hread := by cases hread

theorem bind {w : Cells.Walk α} {next : α → Cells.Walk γ} {rd : Decode Unit α}
    {f : α → Decode Unit γ} (h : Agrees w rd) (hn : ∀ a, Agrees (next a) (f a)) :
    Agrees (w >>= next) (rd >>= f) where
  keeps := h.keeps.bind fun a => (hn a).keeps
  ok hsees hread := by
    obtain ⟨a, mid, hfst, hr⟩ := bind_ok.mp hread
    obtain ⟨rfl, hmid⟩ := h.ok hsees hfst
    exact (hn _).ok hmid hr
  error {decoder input failure} hsees hread := by
    rw [run_bind] at hread
    cases hfst : rd input with
    | error f' =>
      rw [hfst] at hread
      cases hread
      obtain ⟨m, hf, hc⟩ := h.error hsees hfst
      exact ⟨m, hf, ((hn _).keeps _).error _ hc⟩
    | ok mid =>
      rw [hfst] at hread
      obtain ⟨hval, hmid⟩ := h.ok hsees hfst
      obtain ⟨m, hf, hc⟩ := (hn _).error hmid hread
      rw [← hval] at hc
      exact ⟨m, hf, hc⟩

theorem ite {c : Prop} [Decidable c] {w w' : Cells.Walk α} {rd rd' : Decode Unit α}
    (h : Agrees w rd) (h' : Agrees w' rd') :
    Agrees (if c then w else w') (if c then rd else rd') := by
  by_cases hc : c
  · rw [if_pos hc, if_pos hc]
    exact h
  · rw [if_neg hc, if_neg hc]
    exact h'

/-- Both give up with one message; what the walk gives back does not matter. -/
theorem gaveUp (m : String) (a : α) :
    Agrees (do Cells.decoderError m; Pure.pure a) (decoderError m) where
  keeps := Keeps.gaveUp m a
  ok _ hread := by cases hread
  error hsees hread := by
    cases hread
    exact ⟨m, rfl, Cells.decoderError_clean hsees.clean m⟩

/-- A walk and a reader, one input at a time. -/
theorem of {w : Cells.Walk α} {rd : Decode Unit α} (hk : Keeps w)
    (h : ∀ decoder input, Sees decoder input →
      (∃ out, rd input = .ok ((w decoder).1, out) ∧ Sees (w decoder).2 out) ∨
      ∃ m, rd input = .error (.error m) ∧ (w decoder).2.error = some m) :
    Agrees w rd where
  keeps := hk
  ok {decoder input _ _} hsees hread := by
    rcases h decoder input hsees with ⟨out, hok, hout⟩ | ⟨m, herr, -⟩
    · cases hok.symm.trans hread
      exact ⟨rfl, hout⟩
    · cases herr.symm.trans hread
  error {decoder input _} hsees hread := by
    rcases h decoder input hsees with ⟨out, hok, -⟩ | ⟨m, herr, hc⟩
    · cases hok.symm.trans hread
    · cases herr.symm.trans hread
      exact ⟨m, rfl, hc⟩

end Agrees

namespace Sees

variable {decoder : Cells.Decoder} {input : Input UInt8 (Decoder Unit)}

theorem length (h : Sees decoder input) : decoder.position + input.rest.length = decoder.limit := by
  have h1 := h.ahead
  have h2 := h.inside
  rw [h.rest, length_drop, length_take]
  omega

/-- So many bytes further. -/
theorem skip (h : Sees decoder input) {a : Nat} (hle : a ≤ input.rest.length) :
    Sees { decoder with position := decoder.position + a } ⟨input.rest.drop a, input.state⟩ where
  clean := h.clean
  ahead := by
    have := h.length
    dsimp only
    omega
  inside := h.inside
  rest := by
    dsimp only
    rw [h.rest, drop_drop]
  nodes := h.nodes

theorem readU8_cons (h : Sees decoder input) {byte : UInt8} {r : List UInt8}
    (hr : input.rest = byte :: r) (ctx : String) :
    Cells.readU8 ctx decoder = (byte.toNat, { decoder with position := decoder.position + 1 }) ∧
      Sees { decoder with position := decoder.position + 1 } ⟨r, input.state⟩ := by
  have hlen := h.length
  rw [hr, length_cons] at hlen
  have hb : (decoder.bytes.take decoder.limit)[decoder.position]? = some byte := by
    have hh := congrArg head? (h.rest.symm.trans hr)
    rwa [head?_drop] at hh
  rw [getElem?_take_of_lt (by omega)] at hb
  refine ⟨?_, ?_⟩
  · rw [readU8_eq, if_pos (by omega)]
    unfold Cells.nextByte
    rw [getD_eq_getElem?_getD, hb]
    rfl
  · have hone : 1 ≤ input.rest.length := by
      rw [hr, length_cons]
      omega
    have hs := h.skip hone
    rw [hr] at hs
    exact hs

theorem readU8_nil (h : Sees decoder input) (hr : input.rest = []) (ctx : String) :
    (Cells.readU8 ctx decoder).2.error = some ("Store RPC ended inside " ++ ctx) := by
  have hlen := h.length
  rw [hr, length_nil] at hlen
  rw [readU8_eq, if_neg (by omega)]
  exact Cells.decoderError_clean h.clean _

end Sees

/-! ### Numbers -/

/-- A low byte and what is above it do not overlap. -/
theorem ofNat_byte_or (byte n : Nat) (h : byte < 256) :
    BitVec.ofNat 64 (byte + 256 * n) = BitVec.ofNat 64 byte ||| BitVec.ofNat 64 n <<< 8 := by
  have hor : byte + 256 * n = n <<< 8 ||| byte := by
    rw [← Nat.shiftLeft_add_eq_or_of_lt (show byte < 2 ^ 8 from h), Nat.shiftLeft_eq]
    omega
  rw [hor]
  refine BitVec.eq_of_getLsbD_eq fun i hi => ?_
  rw [BitVec.getLsbD_or, BitVec.getLsbD_shiftLeft, BitVec.getLsbD_ofNat, BitVec.getLsbD_ofNat,
    BitVec.getLsbD_ofNat, Nat.testBit_or, Nat.testBit_shiftLeft]
  by_cases h8 : 8 ≤ i
  · simp [hi, h8, Bool.or_comm, show i - 8 < 64 by omega, show ¬i < 8 by omega]
  · simp [hi, h8]

/-- The loop reads the bytes of a number, or ends where they do. -/
theorem readLeFrom_spec (ctx : String) (w : Nat) :
    ∀ {decoder : Cells.Decoder} {input : Input UInt8 (Decoder Unit)} (off : Nat)
      (v : BitVec 64), Sees decoder input →
      (w ≤ input.rest.length → Cells.readLeFrom ctx w off v decoder
          = (v ||| BitVec.ofNat 64 (leValue (input.rest.take w)) <<< (off * 8),
            { decoder with position := decoder.position + w })) ∧
      (input.rest.length < w → (Cells.readLeFrom ctx w off v decoder).2.error
          = some ("Store RPC ended inside " ++ ctx)) := by
  induction w with
  | zero =>
    intro decoder input off v _
    refine ⟨fun _ => ?_, fun h => absurd h (Nat.not_lt_zero _)⟩
    rw [take_zero]
    show (v, decoder) = (v ||| 0#64 <<< (off * 8), _)
    rw [BitVec.zero_shiftLeft, BitVec.or_zero]
    rfl
  | succ w ih =>
    intro decoder input off v hs
    unfold Cells.readLeFrom
    rw [Cells.run_bind]
    cases hr : input.rest with
    | nil =>
      refine ⟨fun h => by rw [length_nil] at h; omega, fun _ => ?_⟩
      exact (keeps_readLeFrom _ _ _ _ _).error _ (hs.readU8_nil hr ctx)
    | cons b r =>
      obtain ⟨hre, hn⟩ := hs.readU8_cons hr ctx
      rw [hre]
      obtain ⟨hfit, he⟩ := ih (off + 1) (v ||| BitVec.ofNat 64 b.toNat <<< (off * 8)) hn
      rw [length_cons]
      refine ⟨fun h => ?_, fun h => he (by dsimp only; omega)⟩
      rw [hfit (by dsimp only; omega), take_succ_cons]
      have hlow : (off + 1) * 8 = 8 + off * 8 := by omega
      rw [leValue, ofNat_byte_or _ _ b.toNat_lt, BitVec.shiftLeft_or_distrib,
        ← BitVec.shiftLeft_add, BitVec.or_assoc, hlow, Nat.add_assoc, Nat.add_comm 1 w]

theorem readLe_eq (w : Nat) (ctx : String) (input : Input UInt8 (Decoder Unit)) : readLe w ctx input
      = if input.rest.length < w then .error (.error ("Store RPC ended inside " ++ ctx))
        else .ok (leValue (input.rest.take w), ⟨input.rest.drop w, input.state⟩) := by
  unfold readLe readBytes takeN
  rw [run_bind]
  by_cases h : input.rest.length < w
  · rw [if_pos h, if_pos h]
    rfl
  · rw [if_neg h, if_neg h]
    rfl

/-- A number that is made of the loop's value, and of the reader's, alike. -/
theorem agrees_readLe {α : Type} (w : Nat) (ctx : String) (m : BitVec 64 → α) (m' : Nat → α)
    (hma : ∀ bs : List UInt8, bs.length = w → m (.ofNat 64 (leValue bs)) = m' (leValue bs)) :
    Agrees (do let value ← Cells.readLeFrom ctx w 0 0; pure (m value))
      (do let value ← readLe w ctx; pure (m' value)) := by
  refine .of ((keeps_readLeFrom ctx w 0 0).bind fun _ => Keeps.pure _)
    fun decoder input hs => ?_
  obtain ⟨hfit, he⟩ := readLeFrom_spec ctx w 0 0 hs
  rw [run_bind, readLe_eq, Cells.run_bind]
  by_cases h : input.rest.length < w
  · rw [if_pos h]
    exact Or.inr ⟨_, rfl, he h⟩
  · have hm := hma (input.rest.take w) (length_take_of_le (by omega))
    have hz : ∀ v : BitVec 64, 0 ||| v = v := fun _ => BitVec.zero_or
    rw [if_neg h, hfit (by omega), Nat.zero_mul, BitVec.shiftLeft_zero, hz]
    exact Or.inl ⟨_, congrArg (fun a => Except.ok (a, _)) hm.symm, hs.skip (by omega)⟩

theorem agrees_readU32Le (ctx : String) : Agrees (Cells.readU32Le ctx) (readU32Le ctx) := by
  have hm : ∀ bs : List UInt8, bs.length = 4 →
      (BitVec.ofNat 64 (leValue bs)).toNat = id (leValue bs) := by
    intro bs hlen
    have hlt := leValue_lt bs
    rw [hlen] at hlt
    exact Nat.mod_eq_of_lt (by omega)
  have hr := agrees_readLe 4 ctx BitVec.toNat id hm
  rw [show (do let value ← readLe 4 ctx; pure (id value)) = readU32Le ctx from
    bind_pure _] at hr
  exact hr

theorem agrees_readI64Le (ctx : String) : Agrees (Cells.readI64Le ctx) (readI64Le ctx) :=
  agrees_readLe 8 ctx Int64.ofBitVec (fun v => .ofBitVec (.ofNat 64 v)) fun _ _ => rfl

theorem agrees_readU8 (ctx : String) : Agrees (Cells.readU8 ctx) (readU8 ctx) := by
  refine .of (keeps_readU8 ctx) fun decoder input hs => ?_
  unfold readU8
  rw [readLe_eq]
  cases hr : input.rest with
  | nil => exact Or.inr ⟨_, rfl, hs.readU8_nil hr ctx⟩
  | cons b r =>
    obtain ⟨hval, hn⟩ := hs.readU8_cons hr ctx
    rw [hval, if_neg (by rw [length_cons]; omega)]
    exact Or.inl ⟨_, rfl, hn⟩

/-! ### Texts -/

theorem width_le (b0 : Nat) : Utf8.width b0 ≤ 4 := by
  unfold Utf8.width
  split <;> [skip; split <;> [skip; split <;> [skip; split]]] <;> omega

variable {st : Decoder Unit}

/-- The bytes of a scalar after its first, one after the other, as far as it is wide. -/
theorem readPast_spec {decoder : Cells.Decoder} {r : List UInt8} (h : Sees decoder ⟨r, st⟩)
    {w : Nat} (hwd : w - 1 ≤ r.length) (i : Nat) (l : String) :
    Cells.readPast (i + 1) w l
        { decoder with position := decoder.position + min (w - 1) i }
      = (if w > i + 1 then (r.getD i 0).toNat else 0,
        { decoder with position := decoder.position + min (w - 1) (i + 1) }) := by
  unfold Cells.readPast
  by_cases hw : w > i + 1
  · have hi : i < r.length := by omega
    have hs := @Sees.skip _ _ h i (Nat.le_of_lt hi)
    have hd : r.drop i = r[i] :: r.drop (i + 1) := drop_eq_getElem_cons hi
    rw [if_pos hw, if_pos hw, Nat.min_eq_right (by omega), Nat.min_eq_right (by omega),
      getD_eq_getElem?_getD, getElem?_eq_getElem hi]
    exact (hs.readU8_cons hd l).1
  · rw [if_neg hw, if_neg hw, Nat.min_eq_left (by omega), Nat.min_eq_left (by omega)]
    rfl

/-- One scalar of a span that goes on for `length` bytes more: both take it or both find the span
    invalid. -/
theorem readScalar_spec {decoder : Cells.Decoder} {b : UInt8} {r : List UInt8}
    (h : Sees decoder ⟨b :: r, st⟩) {n : Nat} (hle : n ≤ r.length)
    (l : String) :
    (∃ width c, 0 < width ∧ width ≤ n + 1 ∧ Utf8.decodeChars (b :: r.take n)
        = (Utf8.decodeChars ((r.drop (width - 1)).take (n + 1 - width))).map (c :: ·) ∧
      Cells.readScalar l (decoder.position + (n + 1)) decoder
        = (true, { decoder with position := decoder.position + width })) ∨
    Utf8.decodeChars (b :: r.take n) = none ∧
      (Cells.readScalar l (decoder.position + (n + 1)) decoder).1 = false ∧
      (Cells.readScalar l (decoder.position + (n + 1)) decoder).2.error
        = some (l ++ " is not valid UTF-8") := by
  obtain ⟨hr, hn⟩ := h.readU8_cons rfl l
  rw [Utf8.decodeChars, length_take_of_le hle]
  unfold Cells.readScalar
  rw [hr]
  dsimp only
  generalize hw : Utf8.width b.toNat = width
  have hfo : width ≤ 4 := hw ▸ width_le b.toNat
  have hsto : (width = 0 ∨ decoder.position + width > decoder.position + (n + 1)) ↔
      (width = 0 ∨ width > n + 1) := by omega
  by_cases hbad : width = 0 ∨ width > n + 1
  · rw [if_pos hbad, if_pos (hsto.mpr hbad)]
    exact Or.inr ⟨rfl, rfl, Cells.decoderError_clean h.clean _⟩
  · rw [if_neg hbad, if_neg (fun hs => hbad (hsto.mp hs))]
    have hf : width - 1 ≤ r.length := by omega
    have ht : ∀ i, (if width > i + 1 then ((r.take n).getD i 0).toNat else 0)
        = if width > i + 1 then (r.getD i 0).toNat else 0 := by
      intro i
      by_cases hi : width > i + 1
      · rw [if_pos hi, if_pos hi, getD_eq_getElem?_getD, getD_eq_getElem?_getD,
          getElem?_take_of_lt (by omega)]
      · rw [if_neg hi, if_neg hi]
    have h1 := readPast_spec hn hf 0 l
    have h2 := readPast_spec hn hf 1 l
    have h3 := readPast_spec hn hf 2 l
    have hst : decoder.position + 1 + min (width - 1) 0 = decoder.position + 1 := by omega
    have hend : decoder.position + 1 + min (width - 1) (2 + 1) = decoder.position + width := by omega
    dsimp only at h1 h2 h3
    rw [hst] at h1
    rw [hend] at h3
    rw [h1]
    dsimp only
    rw [h2]
    dsimp only
    rw [h3]
    dsimp only
    rw [ht 0, ht 1, ht 2]
    by_cases hv : Utf8.scalarValid width b.toNat (if width > 0 + 1 then (r.getD 0 0).toNat else 0)
        (if width > 1 + 1 then (r.getD 1 0).toNat else 0)
        (if width > 2 + 1 then (r.getD 2 0).toNat else 0) = true
    · rw [if_pos hv, if_pos hv]
      have hlen : n - (width - 1) = n + 1 - width := by omega
      rw [drop_take, hlen]
      exact Or.inl ⟨width, _, by omega, by omega, rfl, rfl⟩
    · rw [if_neg hv, if_neg hv]
      exact Or.inr ⟨rfl, rfl, Cells.decoderError_clean h.clean _⟩

/-- The loop decodes what is left of its span, or finds it invalid; turns are enough when there are
    more of them than bytes. -/
theorem readScalars_spec (l : String) (s ts : Nat) :
    ∀ {decoder : Cells.Decoder} {input : Input UInt8 (Decoder Unit)} {n : Nat},
      Sees decoder input → n ≤ input.rest.length → n < ts →
      (∀ cs, Utf8.decodeChars (input.rest.take n) = some cs →
        Cells.readScalars l s (decoder.position + n) ts decoder
          = ((Utf8.decode (subvec decoder.bytes s (decoder.position + n))).getD "",
            { decoder with position := decoder.position + n })) ∧
      (Utf8.decodeChars (input.rest.take n) = none →
        (Cells.readScalars l s (decoder.position + n) ts decoder).2.error
          = some (l ++ " is not valid UTF-8")) := by
  induction ts with
  | zero => intro decoder input n _ _ h; exact absurd h (Nat.not_lt_zero _)
  | succ ts ih =>
    intro decoder input n hse hle htu
    unfold Cells.readScalars
    cases n with
    | zero =>
      rw [if_pos (show decoder.position ≥ decoder.position + 0 from Nat.le_refl _), take_zero,
        Utf8.decodeChars]
      exact ⟨fun _ _ => rfl, fun h => (by cases h)⟩
    | succ n =>
      obtain ⟨r, st⟩ := input
      cases r with
      | nil => exact absurd hle (by rw [length_nil]; omega)
      | cons b r =>
        dsimp only at hle ⊢
        rw [length_cons] at hle
        have hnot : ¬decoder.position ≥ decoder.position + (n + 1) := by omega
        rw [if_neg hnot, take_succ_cons]
        rcases readScalar_spec hse (Nat.le_of_succ_le_succ hle) l with
          ⟨w, c, hpos, hw, hdec, hsc⟩ | ⟨hdec, hinv, herr⟩
        · rw [hsc, hdec]
          have hs := @Sees.skip _ _ hse w (by rw [length_cons]; omega)
          have hd : (b :: r).drop w = r.drop (w - 1) := by
            cases w with
            | zero => exact absurd hpos (Nat.lt_irrefl _)
            | succ w => rfl
          dsimp only at hs
          rw [hd] at hs
          have ht := @ih _ _ (n + 1 - w) hs (by dsimp only; rw [length_drop]; omega) (by omega)
          have hst : decoder.position + w + (n + 1 - w) = decoder.position + (n + 1) := by omega
          dsimp only at ht
          rw [hst] at ht
          refine ⟨fun cs hcs => ?_, fun hn => ?_⟩
          · obtain ⟨cs', hcs', -⟩ := Option.map_eq_some_iff.mp hcs
            exact ht.1 cs' hcs'
          · exact ht.2 (Option.map_eq_none_iff.mp hn)
        · rw [hdec]
          refine ⟨fun cs h => (by cases h), fun _ => ?_⟩
          rw [if_neg (by rw [hinv]; exact Bool.false_ne_true)]
          exact herr

theorem readUtf8_eq (n : Nat) (l : String) (input : Input UInt8 (Decoder Unit)) : readUtf8 n l input
      = if input.rest.length < n then .error (.error ("Store RPC ended inside " ++ l))
        else match Utf8.decode (input.rest.take n) with
          | some t => .ok (t, ⟨input.rest.drop n, input.state⟩)
          | none => .error (.error (l ++ " is not valid UTF-8")) := by
  unfold readUtf8 readBytes takeN
  rw [run_bind]
  by_cases h : input.rest.length < n
  · rw [if_pos h, if_pos h]
    rfl
  · rw [if_neg h, if_neg h]
    dsimp only [Except.bind]
    cases Utf8.decode (input.rest.take n) with
    | some t => rfl
    | none => rfl

theorem Sees.span {decoder : Cells.Decoder} {input : Input UInt8 (Decoder Unit)}
    (h : Sees decoder input) {length : Nat} (hle : length ≤ input.rest.length) :
    subvec decoder.bytes decoder.position (decoder.position + length) = input.rest.take length := by
  have hlen := h.length
  unfold subvec
  rw [h.rest, drop_take, take_take, Nat.add_sub_cancel_left, Nat.min_eq_left (by omega)]

/-- Where the bytes are there, a text is read by the loop. -/
theorem readUtf8_walk {decoder : Cells.Decoder} {input : Input UInt8 (Decoder Unit)}
    (h : Sees decoder input) {n : Nat} (hle : n ≤ input.rest.length) (l : String) :
    Cells.readUtf8 n l decoder = Cells.readScalars l decoder.position (decoder.position + n) (n + 1)
          decoder := by
  have hlen := h.length
  have hens := ensureBytes_eq n l decoder
  rw [if_pos (by omega)] at hens
  unfold Cells.readUtf8
  rw [Cells.run_bind, hens]
  rfl

theorem agrees_readUtf8 (n : Nat) (l : String) : Agrees (Cells.readUtf8 n l) (readUtf8 n l) := by
  refine .of (keeps_readUtf8 n l) fun decoder input hs => ?_
  rw [readUtf8_eq]
  by_cases h : input.rest.length < n
  · have hlen := hs.length
    have hens := ensureBytes_eq n l decoder
    rw [if_neg (by omega)] at hens
    rw [if_pos h]
    refine Or.inr ⟨_, rfl, ?_⟩
    unfold Cells.readUtf8
    rw [Cells.run_bind, hens]
    exact Cells.decoderError_clean hs.clean _
  · have hle : n ≤ input.rest.length := by omega
    have hsp := readScalars_spec l decoder.position (n + 1) hs hle (Nat.lt_succ_self _)
    rw [if_neg h, readUtf8_walk hs hle]
    cases hdec : Utf8.decode (input.rest.take n) with
    | none => exact Or.inr ⟨_, rfl, hsp.2 (Option.map_eq_none_iff.mp hdec)⟩
    | some t =>
      obtain ⟨cs, hcs, -⟩ := Option.map_eq_some_iff.mp hdec
      rw [hsp.1 cs hcs, hs.span hle, hdec]
      exact Or.inl ⟨_, rfl, hs.skip hle⟩

/-- **A text is read exactly where the bytes are UTF-8**: with enough bytes ahead and no error yet,
`read-utf8!` records none just when the bytes are those of some characters, and then it ends behind
them with these characters. -/
theorem readUtf8_exact {decoder : Cells.Decoder} {length : Nat} (hclean : decoder.error = none)
    (hahead : decoder.position + length ≤ decoder.limit)
    (hinside : decoder.limit ≤ decoder.bytes.length) (label : String) :
    ((Cells.readUtf8 length label decoder).2.error = none ↔
        ∃ text, subvec decoder.bytes decoder.position (decoder.position + length) =
          Utf8.encode text) ∧
      ((Cells.readUtf8 length label decoder).2.error = none →
        (Cells.readUtf8 length label decoder).2.position = decoder.position + length ∧
          subvec decoder.bytes decoder.position (decoder.position + length) =
            Utf8.encode (Cells.readUtf8 length label decoder).1) := by
  have hs : Sees decoder ⟨(decoder.bytes.take decoder.limit).drop decoder.position,
      ⟨decoder.nodes, ()⟩⟩ := ⟨hclean, by omega, hinside, rfl, rfl⟩
  have hle : length ≤ ((decoder.bytes.take decoder.limit).drop decoder.position).length := by
    rw [length_drop, length_take_of_le hinside]
    omega
  have hsp := hs.span hle
  have hl := readScalars_spec label decoder.position (length + 1) hs hle (Nat.lt_succ_self _)
  rw [readUtf8_walk hs hle, hsp]
  rw [← hsp] at hl ⊢
  cases hdec : Utf8.decodeChars
      (subvec decoder.bytes decoder.position (decoder.position + length)) with
  | none =>
    have herr := hl.2 hdec
    have hn : ¬∃ text, subvec decoder.bytes decoder.position (decoder.position + length) =
        Utf8.encode text := by
      rintro ⟨text, ht⟩
      have hb := Utf8.decode_encode text
      rw [← ht, Utf8.decode, hdec] at hb
      exact absurd hb (Option.some_ne_none text).symm
    rw [herr]
    exact ⟨⟨fun h => absurd h (Option.some_ne_none _), fun h => absurd h hn⟩,
      fun h => absurd h (Option.some_ne_none _)⟩
  | some cs =>
    have hr := hl.1 cs hdec
    have ht : Utf8.decode (subvec decoder.bytes decoder.position (decoder.position + length)) =
          some (String.ofList cs) := by
      rw [Utf8.decode, hdec]
      rfl
    have henc := (Utf8.encode_of_decode ht).symm
    rw [hr, ht]
    exact ⟨⟨fun _ => ⟨_, henc⟩, fun _ => hclean⟩, fun _ => ⟨rfl, henc⟩⟩

/-- The two bytes of one character. -/
theorem readUtf8_two_bytes :
    (Cells.readUtf8 2 "text" ⟨[65, 195, 169, 66], 1, 4, 0, none⟩).2.error = none :=
  (@readUtf8_exact ⟨[65, 195, 169, 66], 1, 4, 0, none⟩ 2 rfl (by decide) (by decide) "text").1.mpr
    ⟨"é", by decide⟩

theorem agrees_readSizedText (m : Nat) (l : String) :
    Agrees (Cells.readSizedText m l) (readSizedText m l) :=
  (agrees_readU32Le l).bind fun n =>
    Agrees.ite (Agrees.gaveUp _ "") (agrees_readUtf8 n l)

/-! ### Terms -/

variable {mn md d : Nat}

/-- Both count the node, and go on to bodies that agree. -/
theorem agrees_node (hd : d ≤ md) {w : Cells.Walk Term}
    {rd : Decode Unit Term} (h : Agrees w rd) :
    Agrees (do
        let node ← Cells.decoderNodeLimited d mn md
        if d ≤ md then if node then w else pure Cells.rpcInvalid
        else pure Cells.rpcInvalid)
      (do decoderNode mn; rd) := by
  have hcnt : Agrees Cells.countNode (do
      let decoder ← getState
      setState { decoder with nodes := decoder.nodes + 1 }
      pure (decoder.nodes + 1)) := by
    refine .of keeps_countNode fun decoder input hs => Or.inl
      ⟨⟨input.rest, { input.state with nodes := input.state.nodes + 1 }⟩, ?_, hs.clean,
        hs.ahead, hs.inside, hs.rest, congrArg (· + 1) hs.nodes⟩
    exact congrArg (fun nodes => Except.ok (nodes + 1, _)) hs.nodes
  have hnot : ¬d > md := by omega
  have hst := hcnt.bind fun nodes => @Agrees.ite _ (nodes > mn) _ _ _ _ _
    (Agrees.gaveUp termNodeCountError Cells.rpcInvalid) h
  have hw : (do
        let node ← Cells.decoderNodeLimited d mn md
        if d ≤ md then if node then w else pure Cells.rpcInvalid
        else pure Cells.rpcInvalid)
      = (do
        let nodes ← Cells.countNode
        if nodes > mn then do
          Cells.decoderError termNodeCountError
          pure Cells.rpcInvalid
        else w) := by
    simp only [Cells.decoderNodeLimited, if_neg hnot, if_pos hd]
    rw [bind_assoc]
    refine bind_congr fun nodes => ?_
    by_cases ho : nodes > mn
    · rw [if_pos ho, if_pos ho]
      rfl
    · rw [if_neg ho, if_neg ho]
      rfl
  have hr : (do decoderNode mn; rd) = ((do
        let decoder ← getState
        setState { decoder with nodes := decoder.nodes + 1 }
        pure (decoder.nodes + 1) : Decode Unit Nat) >>= fun nodes =>
          if nodes > mn then decoderError termNodeCountError else rd) := by
    unfold decoderNode
    rw [bind_assoc, bind_assoc]
    refine bind_congr fun decoder => ?_
    rw [bind_assoc, bind_assoc]
    refine bind_congr fun _ => ?_
    rw [pure_bind]
    by_cases ho : decoder.nodes + 1 > mn
    · rw [if_pos ho, if_pos ho]
      rfl
    · rw [if_neg ho, if_neg ho]
      rfl
  rw [hw, hr]
  exact hst

/-- **Reading a Term over cells agrees with the reader that stops at its first error.** -/
theorem agrees_readTermLimited (msb mn md ls : Nat) : ∀ d, md + 1 - d = ls →
      Agrees (Cells.readTermLimited msb mn md d) (readTermLimited msb mn ls) := by
  induction ls with
  | zero =>
    intro d hl
    have hd : d > md := by omega
    have hnot : ¬d ≤ md := by omega
    rw [Cells.readTermLimited]
    simp only [Cells.decoderNodeLimited, if_pos hd, if_neg hnot]
    exact Agrees.gaveUp recursiveTermDepthError Cells.rpcInvalid
  | succ ls ih =>
    intro d hl
    rw [Cells.readTermLimited]
    refine agrees_node (by omega) ?_
    have hc := ih (d + 1) (by omega)
    unfold Cells.readTagged
    refine (agrees_readU8 _).bind fun tag => ?_
    split
    · exact (agrees_readSizedText _ _).bind fun _ => Agrees.pure _
    · exact (agrees_readI64Le _).bind fun _ => Agrees.pure _
    · exact (agrees_readI64Le _).bind fun _ => Agrees.pure _
    · exact Agrees.pure _
    · exact Agrees.pure _
    · exact (agrees_readSizedText _ _).bind fun _ =>
        Agrees.ite (Agrees.gaveUp _ _) (Agrees.pure _)
    · exact hc.bind fun _ => hc.bind fun _ => hc.bind fun _ => Agrees.pure _
    · refine (agrees_readI64Le _).bind fun ss => (agrees_readU32Le _).bind fun ns => ?_
      by_cases hn : ns < 1000000000
      · rw [dif_pos hn, dif_pos hn]
        exact Agrees.pure _
      · rw [dif_neg hn, dif_neg hn]
        exact Agrees.gaveUp _ _
    · rename_i h1 h2 h3 h4 h5 h6 h7 h8
      -- the two readers branch alike, so one split may settle both
      first
        | exact Agrees.gaveUp _ _
        | split
          exacts [absurd rfl h1, absurd rfl h2, absurd rfl h3, absurd rfl h4, absurd rfl h5,
            absurd rfl h6, absurd rfl h7, absurd rfl h8, Agrees.gaveUp _ _]

/-! ### Pushes agree with the encoder -/

/-- The push appends what the encoder appends, and has its error where that fails. -/
structure Pushes (push : Cells.Push Unit) (write : Encode Unit) : Prop where
  ok : ∀ {encoder : Cells.Encoder} {out}, encoder.error = none →
    write ⟨encoder.bytes, encoder.nodes⟩ = .ok ((), out) →
      push encoder = ((), ⟨out.bytes, out.nodes, none⟩)
  error : ∀ {encoder : Cells.Encoder} {message}, encoder.error = none →
    write ⟨encoder.bytes, encoder.nodes⟩ = .error message → (push encoder).2.error = some message
  stays : ∀ {encoder : Cells.Encoder} {message}, encoder.error = some message →
    (push encoder).2.error = some message

theorem Cells.push_bind {α γ : Type} (p : Cells.Push α) (next : α → Cells.Push γ)
    (e : Cells.Encoder) :
    (p >>= next) e = next (p e).1 (p e).2 := rfl

namespace Pushes

theorem bind {p p' : Cells.Push Unit} {w w' : Encode Unit} (h : Pushes p w)
    (h' : Pushes p' w') : Pushes (do p; p') (do w; w') where
  ok {encoder out} hclean hwrite := by
    obtain ⟨u, mid, hfst, hr⟩ := bind_ok.mp hwrite
    rw [Cells.push_bind, h.ok hclean hfst]
    exact h'.ok rfl hr
  error {encoder message} hclean hwrite := by
    rw [run_bind] at hwrite
    cases hfst : w ⟨encoder.bytes, encoder.nodes⟩ with
    | error m' =>
      rw [hfst] at hwrite
      cases hwrite
      exact h'.stays (h.error hclean hfst)
    | ok mid =>
      rw [hfst] at hwrite
      rw [Cells.push_bind, h.ok hclean hfst]
      exact h'.error rfl hwrite
  stays hcell := h'.stays (h.stays hcell)

theorem encoderError (m : String) : Pushes (Cells.encoderError m) (Store.encoderError m) where
  ok _ hwrite := by cases hwrite
  error {encoder _} hclean hwrite := by
    cases hwrite
    show encoder.error.or (some m) = some m
    rw [hclean]
    rfl
  stays {encoder message'} hcell := by
    show encoder.error.or (some m) = some message'
    rw [hcell]
    rfl

end Pushes

variable {p : Cells.Push Unit}

/-- A push that appends some bytes whatever else the encoder has. -/
theorem pushes_bytes {bytes : List UInt8}
    (h : ∀ e, p e = ((), { e with bytes := e.bytes ++ bytes })) :
    Pushes p (appendBytes bytes) where
  ok {e out} hclean hwrite := by
    cases hwrite
    rw [h, hclean]
  error _ hwrite := by cases hwrite
  stays hcell := by
    rw [h]
    exact hcell

theorem appendU8_eq {v : Nat} (h : v ≤ 255) (e : Cells.Encoder) : Cells.appendU8 v e
      = ((), { e with bytes := e.bytes ++ [UInt8.ofNat v] }) := if_pos h

/-- The loop appends the bytes of what is left of a number from an offset. -/
theorem appendLeFrom_eq (v : BitVec 64) (w : Nat) :
    ∀ (offset : Nat) (e : Cells.Encoder), Cells.appendLeFrom v w offset e = ((), { e with
          bytes := e.bytes ++ leBytes w (v.toNat / 256 ^ offset) }) := by
  induction w with
  | zero =>
    intro offset e
    show ((), e) = _
    rw [leBytes, append_nil]
  | succ w ih =>
    intro offset e
    have hb : (255#64 &&& v >>> (offset * 8)).toNat = v.toNat / 256 ^ offset % 256 := by
      have hpow : 2 ^ (offset * 8) = 256 ^ offset := by
        rw [Nat.mul_comm, Nat.pow_mul]
      rw [BitVec.toNat_and, BitVec.toNat_ushiftRight, Nat.shiftRight_eq_div_pow, hpow, Nat.and_comm]
      exact Nat.and_two_pow_sub_one_eq_mod _ 8
    have hlow : UInt8.ofNat (v.toNat / 256 ^ offset % 256)
        = UInt8.ofNat (v.toNat / 256 ^ offset) := by
      apply UInt8.toNat_inj.mp
      rw [UInt8.toNat_ofNat', UInt8.toNat_ofNat']
      omega
    unfold Cells.appendLeFrom
    rw [Cells.push_bind, hb, appendU8_eq (by omega), ih]
    dsimp only
    rw [append_assoc, hlow, leBytes, Nat.div_div_eq_div_mul, ← Nat.pow_succ]
    rfl

theorem appendBytes_eq (bytes : List UInt8) : ∀ e : Cells.Encoder, Cells.appendBytes bytes e
      = ((), { e with bytes := e.bytes ++ bytes }) := by
  induction bytes with
  | nil =>
    intro e
    show ((), e) = _
    rw [append_nil]
  | cons b r ih =>
    intro e
    have hb := b.toNat_lt
    unfold Cells.appendBytes
    rw [Cells.push_bind, appendU8_eq (by omega), ih]
    dsimp only
    rw [append_assoc, UInt8.ofNat_toNat]
    rfl

theorem pushes_appendU8 (v : Nat) : Pushes (Cells.appendU8 v) (appendU8 v) := by
  unfold appendU8
  by_cases h : v ≤ 255
  · rw [if_pos h]
    exact pushes_bytes fun e => appendU8_eq h e
  · rw [if_neg h]
    have hp : Cells.appendU8 v
        = Cells.encoderError "Store RPC encoder produced a value outside u8" :=
      funext fun e => if_neg h
    rw [hp]
    exact Pushes.encoderError _

theorem pushes_appendU32Le (v : Nat) : Pushes (Cells.appendU32Le v) (appendU32Le v) := by
  unfold Cells.appendU32Le appendU32Le
  by_cases h : v ≤ 4294967295
  · rw [if_pos h, if_pos h]
    refine pushes_bytes fun e => ?_
    rw [appendLeFrom_eq, Nat.pow_zero, Nat.div_one, BitVec.toNat_ofNat, Nat.mod_eq_of_lt (by omega)]
  · rw [if_neg h, if_neg h]
    exact Pushes.encoderError _

theorem pushes_appendI64Le (v : Int64) : Pushes (Cells.appendI64Le v) (appendI64Le v) := by
  refine pushes_bytes fun e => ?_
  unfold Cells.appendI64Le
  rw [appendLeFrom_eq, Nat.pow_zero, Nat.div_one]

variable {w : Encode Unit}

/-- A push that is made only while there is no error. -/
theorem Pushes.guarded (h : Pushes p w) :
    Pushes (fun e => if e.error = none then p e else ((), e)) w where
  ok hclean hwrite := by
    rw [if_pos hclean]
    exact h.ok hclean hwrite
  error hclean hwrite := by
    rw [if_pos hclean]
    exact h.error hclean hwrite
  stays hcell := by
    rw [if_neg (by rw [hcell]; exact nofun)]
    exact hcell

theorem pushes_appendSizedText (v : String) (m : Nat) (l : String) :
    Pushes (Cells.appendSizedText v m l) (appendSizedText v m l) := by
  unfold appendSizedText
  by_cases hl : (Utf8.encode v).length > m
  · have hp : Cells.appendSizedText v m l
        = Cells.encoderError (l ++ " exceeds the UTF-8 byte limit") := by
      funext e
      unfold Cells.appendSizedText Cells.utf8Bytes
      dsimp only
      rw [if_pos hl]
      show (ite (e.error.or (some _) = none) _ _ : Cells.Push Unit) _ = _
      rw [if_neg (by cases e.error <;> exact nofun)]
      rfl
    dsimp only
    rw [hp, if_pos hl]
    exact Pushes.encoderError _
  · have hbs : Pushes (Cells.appendBytes (Utf8.encode v)) (appendBytes (Utf8.encode v)) :=
      pushes_bytes (appendBytes_eq _)
    have hp : Cells.appendSizedText v m l = fun e => if e.error = none then
            (do Cells.appendU32Le (Utf8.encode v).length
                Cells.appendBytes (Utf8.encode v) : Cells.Push Unit) e
          else ((), e) := by
      funext e
      unfold Cells.appendSizedText Cells.utf8Bytes
      dsimp only
      rw [if_neg hl]
      show (ite (e.error = none) _ _ : Cells.Push Unit) _ = _
      by_cases hc : e.error = none
      · rw [if_pos hc, if_pos hc]
      · rw [if_neg hc, if_neg hc]
        rfl
    dsimp only
    rw [hp, if_neg hl]
    exact ((pushes_appendU32Le _).bind hbs).guarded

theorem pushes_appendAtom (msb : Nat) (v : AtomValue) :
    Pushes (Cells.appendAtom msb v) (appendAtom msb v) := by
  cases v with
  | string t => exact (pushes_appendU8 1).bind (pushes_appendSizedText _ _ _)
  | int v => exact (pushes_appendU8 2).bind (pushes_appendI64Le _)
  | float v => exact (pushes_appendU8 3).bind (pushes_appendI64Le _)
  | bool v =>
    cases v with
    | false => exact pushes_appendU8 4
    | true => exact pushes_appendU8 5
  | keyword keyword =>
    show Pushes (if keyword.spelling = "" then _ else _) (if keyword.spelling = "" then _ else _)
    by_cases h : keyword.spelling = ""
    · rw [if_pos h, if_pos h]
      exact Pushes.encoderError _
    · rw [if_neg h, if_neg h]
      exact (pushes_appendU8 6).bind (pushes_appendSizedText _ _ _)
  | instant instant =>
    exact (pushes_appendU8 8).bind ((pushes_appendI64Le _).bind (pushes_appendU32Le _))

/-- Both count the node, and go on to bodies that agree. -/
theorem pushes_node (hd : d ≤ md)
    (h : Pushes p w) :
    Pushes (do
        let node ← Cells.encoderNodeLimited d mn md
        if node then p else pure ())
      (do encoderNode mn; w) := by
  have hnot : ¬d > md := by omega
  have hn : ∀ e : Cells.Encoder, (do
        let node ← Cells.encoderNodeLimited d mn md
        if node then p else pure () : Cells.Push Unit) e
      = if e.nodes + 1 > mn then
          Cells.encoderError termNodeCountError { e with nodes := e.nodes + 1 }
        else p { e with nodes := e.nodes + 1 } := by
    intro e
    unfold Cells.encoderNodeLimited
    rw [if_neg hnot]
    show (fun out : Bool × Cells.Encoder => (if out.1 = true then p else pure ()) out.2)
      ((ite (e.nodes + 1 > mn) _ _ : Cells.Push Bool) _) = _
    by_cases ho : e.nodes + 1 > mn
    · rw [if_pos ho, if_pos ho]
      rfl
    · rw [if_neg ho, if_neg ho]
      rfl
  refine ⟨?_, ?_, ?_⟩
  · intro e out hc hw
    obtain ⟨u, mid, hcnt, hr⟩ := bind_ok.mp hw
    unfold encoderNode at hcnt
    by_cases ho : e.nodes + 1 > mn
    · rw [if_pos ho] at hcnt
      cases hcnt
    · rw [if_neg ho] at hcnt
      cases hcnt
      rw [hn, if_neg ho]
      exact h.ok hc hr
  · intro e m hc hw
    rw [run_bind] at hw
    unfold encoderNode at hw
    by_cases ho : e.nodes + 1 > mn
    · rw [if_pos ho] at hw
      cases hw
      rw [hn, if_pos ho]
      show e.error.or (some _) = some _
      rw [hc]
      rfl
    · rw [if_neg ho] at hw
      rw [hn, if_neg ho]
      exact h.error hc hw
  · intro e m hce
    rw [hn]
    by_cases ho : e.nodes + 1 > mn
    · rw [if_pos ho]
      show e.error.or (some _) = some _
      rw [hce]
      rfl
    · rw [if_neg ho]
      exact h.stays hce

/-- Past the depth bound the node is refused. -/
theorem pushes_deep (hd : d > md) (p : Cells.Push Unit) : Pushes (do
        let node ← Cells.encoderNodeLimited d mn md
        if node then p else pure ())
      (encoderError recursiveTermDepthError) := by
  unfold Cells.encoderNodeLimited
  rw [if_pos hd]
  exact Pushes.encoderError recursiveTermDepthError

/-- **Pushing a Term over cells agrees with the encoder that stops at its first error.** -/
theorem pushes_appendTermLimited (msb mn md : Nat) (t : Term) :
    ∀ d ls, md + 1 - d = ls → Pushes (Cells.appendTermLimited msb mn md t d)
        (appendTermLimited msb mn ls t) := by
  induction t with
  | atom v =>
    intro d ls hl
    unfold Cells.appendTermLimited
    cases ls with
    | zero => exact pushes_deep (by omega) _
    | succ ls => exact pushes_node (by omega) (pushes_appendAtom _ v)
  | triple t1 t2 t3 ih1 ih2 ih3 =>
    intro d ls hl
    unfold Cells.appendTermLimited
    cases ls with
    | zero => exact pushes_deep (by omega) _
    | succ ls =>
      refine pushes_node (by omega) ((pushes_appendU8 7).bind ?_)
      exact (ih1 _ _ (by omega)).bind ((ih2 _ _ (by omega)).bind (ih3 _ _ (by omega)))

end Beagle.Store
