/-
What the wire codec of Terms promises.

Reading is exact: a decoder never looks past what it consumes.  And the codec
round-trips: the bytes an encoder pushes for a Term are read back as that Term,
with the node count the encoder had.  And back: what is read as a Term is what an
encoder pushes for it, unless a NaN was read, which is written with the one payload.
-/
import Beagle.Store.WireCodec

namespace Beagle.Store

open Beagle.Lib Beagle.Lib.Reader List

section

variable {ρ : Type}

/-! ### Reading is exact -/

theorem exact_readBytes (amount : Nat) (context : String) :
    Exact (readBytes amount context : Decode ρ (List UInt8)) := Exact.takeN _ _

theorem exact_readLe (width : Nat) (context : String) :
    Exact (readLe width context : Decode ρ Nat) :=
  Exact.bind (exact_readBytes _ _) fun _ => Exact.pure _

theorem exact_readU8 (context : String) : Exact (readU8 context : Decode ρ Nat) :=
  exact_readLe _ _

theorem exact_readU32Le (ctx : String) : Exact (readU32Le ctx : Decode ρ Nat) :=
  exact_readLe _ _

theorem exact_readI64Le (ctx : String) : Exact (readI64Le ctx : Decode ρ Int64) :=
  Exact.bind (exact_readLe _ _) fun _ => Exact.pure _

variable {α : Type}

theorem exact_decoderError (message : String) :
    Exact (decoderError message : Decode ρ α) := Exact.fail _

theorem exact_readUtf8 (length : Nat) (label : String) :
    Exact (readUtf8 length label : Decode ρ String) := by
  refine Exact.bind (exact_readBytes _ _) ?_
  intro bytes
  cases Utf8.decode bytes with
  | some text => exact Exact.pure text
  | none => exact exact_decoderError _

theorem exact_readSizedText (maximum : Nat) (label : String) :
    Exact (readSizedText maximum label : Decode ρ String) := by
  refine Exact.bind (exact_readU32Le _) ?_
  intro length
  exact Exact.ite (exact_decoderError _) (exact_readUtf8 _ _)

theorem exact_decoderNode (maxNodes : Nat) : Exact (decoderNode maxNodes : Decode ρ Unit) := by
  refine Exact.bind Exact.getState ?_
  intro decoder
  refine Exact.bind (Exact.setState _) ?_
  intro _
  exact Exact.ite (exact_decoderError _) (Exact.pure _)

theorem exact_resetNodes : Exact (resetNodes : Decode ρ Unit) :=
  Exact.bind Exact.getState fun _ => Exact.setState _

/-- **Reading a Term is exact.** -/
theorem exact_readTermLimited (maxStringBytes maxNodes levels : Nat) :
    Exact (readTermLimited maxStringBytes maxNodes levels : Decode ρ Term) := by
  induction levels with
  | zero => exact exact_decoderError _
  | succ levels ih =>
    refine Exact.bind (exact_decoderNode _) ?_
    intro _
    refine Exact.bind (exact_readU8 _) ?_
    intro tag
    split
    · exact Exact.bind (exact_readSizedText _ _) fun _ => Exact.pure _
    · exact Exact.bind (exact_readI64Le _) fun _ => Exact.pure _
    · exact Exact.bind (exact_readI64Le _) fun _ => Exact.pure _
    · exact Exact.pure _
    · exact Exact.pure _
    · refine Exact.bind (exact_readSizedText _ _) ?_
      intro spelling
      exact Exact.ite (exact_decoderError _) (Exact.pure _)
    · exact Exact.bind ih fun _ => Exact.bind ih fun _ => Exact.bind ih fun _ => Exact.pure _
    · refine Exact.bind (exact_readI64Le _) ?_
      intro seconds
      refine Exact.bind (exact_readU32Le _) ?_
      intro nanos
      split
      · exact Exact.pure _
      · exact exact_decoderError _
    · exact exact_decoderError _

/-! ### What is written is read back -/

/-- An encoder that succeeds has pushed bytes that this reader reads back as `a`. -/
def RoundTrips {α : Type} (write : Encode Unit) (read : Decode ρ α) (a : α) : Prop :=
  ∀ encoder encoder', write encoder = .ok ((), encoder') →
    ∃ used, encoder'.bytes = encoder.bytes ++ used ∧
      ∀ root : ρ, Reader.Reads read used ⟨encoder.nodes, root⟩ a ⟨encoder'.nodes, root⟩

variable {γ : Type} {write' : Encode Unit} {a : α} {input out : Input UInt8 (Decoder ρ)}

theorem RoundTrips.bind {w : Encode Unit} {rd : Decode ρ α} {rd' : α → Decode ρ γ} {c : γ}
    (h : RoundTrips w rd a) (h' : RoundTrips write' (rd' a) c) :
    RoundTrips (do w; write') (rd >>= rd') c := by
  intro e e' hw
  obtain ⟨u, mid, h1, h2⟩ := bind_ok.mp hw
  obtain ⟨us, hb, hr⟩ := h _ _ h1
  obtain ⟨u', hb', hr'⟩ := h' _ _ h2
  refine ⟨us ++ u', by rw [hb', hb, append_assoc], fun r => (hr r).bind (hr' r)⟩

/-- What is done with a value once it is read, when that reads nothing more. -/
theorem RoundTrips.value {α γ : Type} {w : Encode Unit} {rd : Decode ρ α}
    {f : α → Decode ρ γ} {a : α} {c : γ} (h : RoundTrips w rd a)
    (hf : ∀ s, Reader.Reads (f a) [] s c s) : RoundTrips w (rd >>= f) c := by
  intro e e' hw
  obtain ⟨u, hb, hr⟩ := h _ _ hw
  refine ⟨u, hb, ?_⟩
  intro r
  have := (hr r).bind (hf _)
  rwa [append_nil] at this

theorem RoundTrips.map {w : Encode Unit} {rd : Decode ρ α} (h : RoundTrips w rd a)
    (f : α → γ) : RoundTrips w (do let a ← rd; pure (f a)) (f a) :=
  h.value fun _ => Reader.Reads.pure _ _

theorem roundTrips_error (m : String) (rd : Decode ρ α) (a : α) :
    RoundTrips (encoderError m) rd a := by
  intro e e' hw
  cases hw

theorem roundTrips_bytes (bytes : List UInt8) (ctx : String) :
    RoundTrips (ρ := ρ) (appendBytes bytes) (readBytes bytes.length ctx) bytes := by
  intro e e' hw
  cases hw
  exact ⟨bytes, rfl, fun r => Reader.Reads.takeN _ _ _⟩

theorem roundTrips_le {w value : Nat} (h : value < 256 ^ w) (ctx : String) :
    RoundTrips (ρ := ρ) (appendBytes (leBytes w value)) (readLe w ctx) value := by
  have := (roundTrips_bytes (ρ := ρ) (leBytes w value) ctx).map leValue
  rw [length_leBytes, leValue_leBytes h] at this
  exact this

theorem roundTrips_u8 (value : Nat) (ctx : String) :
    RoundTrips (ρ := ρ) (appendU8 value) (readU8 ctx) value := by
  unfold appendU8
  by_cases h : value ≤ 255
  · rw [if_pos h]
    exact roundTrips_le (by omega) ctx
  · rw [if_neg h]
    exact roundTrips_error _ _ _

theorem roundTrips_u32 (value : Nat) (ctx : String) :
    RoundTrips (ρ := ρ) (appendU32Le value) (readU32Le ctx) value := by
  unfold appendU32Le
  by_cases h : value ≤ 4294967295
  · rw [if_pos h]
    exact roundTrips_le (by omega) ctx
  · rw [if_neg h]
    exact roundTrips_error _ _ _

theorem roundTrips_i64 (value : Int64) (ctx : String) :
    RoundTrips (ρ := ρ) (appendI64Le value) (readI64Le ctx) value := by
  have hlt : value.toBitVec.toNat < 256 ^ 8 := value.toBitVec.isLt
  have := (roundTrips_le (ρ := ρ) hlt ctx).map fun v => Int64.ofBitVec (.ofNat 64 v)
  rw [BitVec.ofNat_toNat, BitVec.setWidth_eq, Int64.ofBitVec_toBitVec] at this
  exact this

theorem roundTrips_sizedText (text : String) (m : Nat) (l : String) :
    RoundTrips (ρ := ρ) (appendSizedText text m l) (readSizedText m l) text := by
  unfold appendSizedText
  by_cases h : (Utf8.encode text).length > m
  · simp only [h, if_true]
    exact roundTrips_error _ _ _
  · simp only [h, if_false]
    refine RoundTrips.bind (roundTrips_u32 _ _) ?_
    rw [if_neg h]
    refine (roundTrips_bytes (Utf8.encode text) l).value ?_
    intro s
    rw [Utf8.decode_encode]
    exact Reader.Reads.pure _ _

theorem roundTrips_node (maxNodes : Nat) :
    RoundTrips (ρ := ρ) (encoderNode maxNodes) (decoderNode maxNodes) () := by
  intro encoder encoder' hw
  unfold encoderNode at hw
  by_cases h : encoder.nodes + 1 > maxNodes
  · rw [if_pos h] at hw
    cases hw
  · rw [if_neg h] at hw
    cases hw
    refine ⟨[], (append_nil _).symm, ?_⟩
    intro root more
    show (if encoder.nodes + 1 > maxNodes then _ else pure () : Decode ρ Unit) _ = _
    rw [if_neg h]
    rfl

theorem ofBits_toBits (f : Float64) : Float64.ofBits f.toBits = f := by
  obtain ⟨bs, hc⟩ := f
  unfold Float64.ofBits Float64.toBits
  by_cases h : nanBits bs = true
  · rw [dif_pos h]
    simp only [hc h]
  · rw [dif_neg h]

/-- The branch of the reader an atom's tag chooses, and what it reads. -/
theorem roundTrips_atom (maxStringBytes maxNodes levels : Nat) (value : AtomValue) :
    RoundTrips (ρ := ρ) (do encoderNode maxNodes; appendAtom maxStringBytes value)
      (readTermLimited maxStringBytes maxNodes (levels + 1)) (.atom value) := by
  refine RoundTrips.bind (roundTrips_node _) ?_
  cases value with
  | string text =>
    refine RoundTrips.bind (roundTrips_u8 1 _) ?_
    exact (roundTrips_sizedText _ _ _).map fun text => Term.atom (.string text)
  | int value =>
    refine RoundTrips.bind (roundTrips_u8 2 _) ?_
    exact (roundTrips_i64 _ _).map fun value => Term.atom (.int value)
  | float value =>
    refine RoundTrips.bind (roundTrips_u8 3 _) ?_
    have := (roundTrips_i64 (ρ := ρ) (.ofBitVec value.toBits) "Float atom").map
      fun bits => Term.atom (.float (.ofBits bits.toBitVec))
    rw [Int64.toBitVec_ofBitVec, ofBits_toBits] at this
    exact this
  | bool value =>
    cases value with
    | false => exact (roundTrips_u8 4 _).value fun _ => Reader.Reads.pure _ _
    | true => exact (roundTrips_u8 5 _).value fun _ => Reader.Reads.pure _ _
  | keyword keyword =>
    show RoundTrips (if keyword.spelling = "" then _ else _) _ _
    by_cases h : keyword.spelling = ""
    · rw [if_pos h]
      exact roundTrips_error _ _ _
    · rw [if_neg h]
      refine RoundTrips.bind (roundTrips_u8 6 _) ?_
      refine (roundTrips_sizedText _ _ _).value ?_
      intro state
      rw [if_neg h]
      exact Reader.Reads.pure _ _
  | instant instant =>
    refine RoundTrips.bind (roundTrips_u8 8 _) ?_
    refine RoundTrips.bind (roundTrips_i64 _ _) ?_
    refine (roundTrips_u32 _ _).value ?_
    intro state
    rw [dif_pos instant.canonical]
    exact Reader.Reads.pure _ _

/-- **What is written for a Term is read back as that Term.** -/
theorem roundTrips_term (msb mn ls : Nat) (term : Term) :
    RoundTrips (ρ := ρ) (appendTermLimited msb mn ls term) (readTermLimited msb mn ls) term := by
  induction ls generalizing term with
  | zero => exact roundTrips_error _ _ _
  | succ ls ih =>
    cases term with
    | atom v => exact roundTrips_atom _ _ _ v
    | triple t1 t2 t3 =>
      refine RoundTrips.bind (roundTrips_node _) ?_
      refine RoundTrips.bind (roundTrips_u8 7 _) ?_
      refine RoundTrips.bind (ih t1) ?_
      refine RoundTrips.bind (ih t2) ?_
      exact (ih t3).map fun t3 => Term.triple t1 t2 t3

/-! ### What is read is what is written -/

/-- From a count of nodes, the encoder pushes these bytes and comes to the other count. -/
def Writes (write : Encode Unit) (used : List UInt8) (nodes nodes' : Nat) : Prop :=
  ∀ bytes, write ⟨bytes, nodes⟩ = .ok ((), ⟨bytes ++ used, nodes'⟩)

theorem Writes.bind {w : Encode Unit} {u u' : List UInt8} {ns ns' nodes'' : Nat}
    (h : Writes w u ns ns') (h' : Writes write' u' ns' nodes'') :
    Writes (do w; write') (u ++ u') ns nodes'' := by
  intro bs
  rw [run_bind, h]
  show write' _ = _
  rw [h', append_assoc]

/-- What a reader consumed is what the encoder pushes for the value. -/
def Rewrites {α : Type} (read : Decode ρ α) (write : α → Encode Unit) (clean : α → Prop) : Prop :=
  ∀ input a out, read input = .ok (a, out) → clean a → ∃ used, input.rest = used ++ out.rest ∧
      Writes (write a) used input.state.nodes out.state.nodes

theorem readLe_ok {width : Nat} {ctx : String} {v : Nat}
    (hr : readLe width ctx input = .ok (v, out)) : ∃ bs, bs.length = width ∧
      input.rest = bs ++ out.rest ∧ out.state = input.state ∧ v = leValue bs := by
  obtain ⟨bs, mid, hbs, hout⟩ := bind_ok.mp hr
  cases hout
  unfold readBytes takeN at hbs
  split at hbs
  · cases hbs
  · cases hbs
    exact ⟨_, length_take_of_le (by omega), (take_append_drop _ _).symm, rfl, rfl⟩

theorem rewrites_readLe (width : Nat) (ctx : String) :
    Rewrites (ρ := ρ) (readLe width ctx) (fun v => appendBytes (leBytes width v))
      (fun _ => True) := by
  intro input v out hr _
  obtain ⟨bs, rfl, hrest, hstate, rfl⟩ := readLe_ok hr
  refine ⟨bs, hrest, ?_⟩
  dsimp only
  rw [hstate, leBytes_leValue]
  exact fun _ => rfl

theorem readLe_lt {width : Nat} {ctx : String} {v : Nat}
    (hr : readLe width ctx input = .ok (v, out)) : v < 256 ^ width := by
  obtain ⟨bs, rfl, -, -, rfl⟩ := readLe_ok hr
  exact leValue_lt bs

theorem rewrites_readU8 (ctx : String) :
    Rewrites (ρ := ρ) (readU8 ctx) appendU8 (fun _ => True) := by
  intro input v out hr hc
  have hlt := readLe_lt hr
  rw [show appendU8 v = appendBytes (leBytes 1 v) from if_pos (by omega)]
  exact rewrites_readLe 1 ctx input v out hr hc

theorem rewrites_readU32Le (ctx : String) :
    Rewrites (ρ := ρ) (readU32Le ctx) appendU32Le (fun _ => True) := by
  intro input v out hr hc
  have hlt := readLe_lt hr
  rw [show appendU32Le v = appendBytes (leBytes 4 v) from if_pos (by omega)]
  exact rewrites_readLe 4 ctx input v out hr hc

theorem rewrites_readI64Le (ctx : String) :
    Rewrites (ρ := ρ) (readI64Le ctx) appendI64Le (fun _ => True) := by
  intro input v out hr hc
  obtain ⟨bs, mid, hb, hout⟩ := bind_ok.mp hr
  cases hout
  have hlt : bs < 2 ^ 64 := readLe_lt hb
  have hval : appendI64Le (.ofBitVec (.ofNat 64 bs)) = appendBytes (leBytes 8 bs) := by
    unfold appendI64Le
    rw [Int64.toBitVec_ofBitVec, BitVec.toNat_ofNat, Nat.mod_eq_of_lt hlt]
  rw [hval]
  exact rewrites_readLe 8 ctx input bs _ hb hc

theorem rewrites_readSizedText (m : Nat) (l : String) : Rewrites (ρ := ρ) (readSizedText m l)
      (fun t => appendSizedText t m l) (fun _ => True) := by
  intro input t out hr _
  obtain ⟨length, c, hlen, hr⟩ := bind_ok.mp hr
  obtain ⟨ul, hsl, hwl⟩ :=
    rewrites_readU32Le l input length c hlen trivial
  by_cases hl : length > m
  · rw [if_pos hl] at hr
    cases hr
  · rw [if_neg hl] at hr
    obtain ⟨bs, tk, hbs, hd⟩ := bind_ok.mp hr
    unfold readBytes takeN at hbs
    by_cases hs : c.rest.length < length
    · rw [if_pos hs] at hbs
      cases hbs
    · rw [if_neg hs] at hbs
      cases hbs
      cases hdec : Utf8.decode (c.rest.take length) with
      | none =>
        rw [hdec] at hd
        cases hd
      | some t' =>
        rw [hdec] at hd
        cases hd
        have henc := Utf8.encode_of_decode hdec
        have hcnt : (Utf8.encode t).length = length := by
          rw [henc]
          exact length_take_of_le (by omega)
        refine ⟨ul ++ c.rest.take length, ?_, ?_⟩
        · rw [hsl, append_assoc, take_append_drop]
        · unfold appendSizedText
          dsimp only
          rw [hcnt, if_neg hl, henc]
          exact hwl.bind fun _ => rfl

theorem decoderNode_spec {maxNodes : Nat} (hr : decoderNode maxNodes input = .ok ((), out)) :
    out.rest = input.rest ∧ out.state.nodes = input.state.nodes + 1 ∧
      ¬input.state.nodes + 1 > maxNodes := by
  obtain ⟨d, mid, hget, hr⟩ := bind_ok.mp hr
  cases hget
  obtain ⟨u, set, hset, hr⟩ := bind_ok.mp hr
  cases hset
  by_cases ho : input.state.nodes + 1 > maxNodes
  · rw [if_pos ho] at hr
    cases hr
  · rw [if_neg ho] at hr
    cases hr
    exact ⟨rfl, rfl, ho⟩

theorem toBits_ofBits {bits : BitVec 64} (h : (Float64.ofBits bits).isNan = false) :
    (Float64.ofBits bits).toBits = bits := by
  unfold Float64.ofBits at h ⊢
  by_cases hnan : nanBits bits = true
  · rw [dif_pos hnan] at h
    exact absurd h (by decide)
  · rw [dif_neg hnan]
    rfl

/-- **What is read as a Term without a NaN is what is written for it.** -/
theorem rewrites_term (maxStringBytes maxNodes levels : Nat) :
    Rewrites (ρ := ρ) (readTermLimited maxStringBytes maxNodes levels)
      (appendTermLimited maxStringBytes maxNodes levels) (fun term => term.hasNan = false) := by
  induction levels with
  | zero =>
    intro input term out hread _
    cases hread
  | succ levels ih =>
    intro input term out hread hclean
    obtain ⟨u, counted, hnode, hread⟩ := bind_ok.mp hread
    obtain ⟨hrest, hnodes, hover⟩ := decoderNode_spec hnode
    obtain ⟨tag, tagged, htag, hread⟩ := bind_ok.mp hread
    obtain ⟨usedTag, hspTag, hwritesTag⟩ := rewrites_readU8 _ _ _ _ htag trivial
    have hcnt : Writes (encoderNode maxNodes) [] input.state.nodes counted.state.nodes := by
      intro bytes
      unfold encoderNode
      rw [if_neg hover, hnodes, append_nil]
    -- The node and the tag are written, and then what the tag is followed by.
    have hfin : ∀ {write : Encode Unit} {used : List UInt8},
        appendTermLimited maxStringBytes maxNodes (levels + 1) term
          = (do encoderNode maxNodes; appendU8 tag; write) →
        tagged.rest = used ++ out.rest → Writes write used tagged.state.nodes out.state.nodes →
          ∃ used, input.rest = used ++ out.rest ∧
            Writes (appendTermLimited maxStringBytes maxNodes (levels + 1) term) used
              input.state.nodes out.state.nodes := by
      intro write used hwrite hsp hwrites
      rw [hwrite]
      refine ⟨usedTag ++ used, ?_, hcnt.bind (hwritesTag.bind hwrites)⟩
      rw [← hrest, hspTag, hsp, append_assoc]
    have hend : ∀ tag : Nat, appendTermLimited maxStringBytes maxNodes (levels + 1) term
        = (do encoderNode maxNodes; appendU8 tag) →
          appendTermLimited maxStringBytes maxNodes (levels + 1) term
            = (do encoderNode maxNodes; appendU8 tag; pure ()) := by
      intro tag hwrite
      rw [hwrite]
      refine bind_congr fun _ => ?_
      exact bind_pure_unit.symm
    have hnone : ∀ state : Nat, Writes (pure ()) [] state state := by
      intro state bytes
      rw [append_nil]
      rfl
    split at hread
    · obtain ⟨text, mid, htext, hout⟩ := bind_ok.mp hread
      cases hout
      obtain ⟨used, hsp, hwrites⟩ := rewrites_readSizedText _ _ _ _ _ htext trivial
      exact hfin rfl hsp hwrites
    · obtain ⟨value, mid, hval, hout⟩ := bind_ok.mp hread
      cases hout
      obtain ⟨used, hsp, hwrites⟩ := rewrites_readI64Le _ _ _ _ hval trivial
      exact hfin rfl hsp hwrites
    · obtain ⟨bits, mid, hbits, hout⟩ := bind_ok.mp hread
      cases hout
      obtain ⟨used, hsp, hwrites⟩ := rewrites_readI64Le _ _ _ _ hbits trivial
      have hsame : Int64.ofBitVec (Float64.ofBits bits.toBitVec).toBits = bits := by
        rw [toBits_ofBits hclean, Int64.ofBitVec_toBitVec]
      rw [← hsame] at hwrites
      exact hfin rfl hsp hwrites
    · cases hread
      exact @hfin (pure ()) [] (hend _ rfl) rfl (hnone _)
    · cases hread
      exact @hfin (pure ()) [] (hend _ rfl) rfl (hnone _)
    · obtain ⟨spelling, mid, hspelling, hout⟩ := bind_ok.mp hread
      by_cases hemp : spelling = ""
      · rw [if_pos hemp] at hout
        cases hout
      · rw [if_neg hemp] at hout
        cases hout
        obtain ⟨used, hsp, hwrites⟩ := rewrites_readSizedText _ _ _ _ _ hspelling trivial
        refine hfin ?_ hsp hwrites
        show (do encoderNode maxNodes; if spelling = "" then _ else _) = _
        rw [if_neg hemp]
    · obtain ⟨t1, mid1, hread1, hread⟩ := bind_ok.mp hread
      obtain ⟨t2, mid2, hread2, hread⟩ := bind_ok.mp hread
      obtain ⟨t3, mid3, hread3, hout⟩ := bind_ok.mp hread
      cases hout
      simp only [Term.hasNan, Bool.or_eq_false_iff] at hclean
      obtain ⟨used1, hsp1, hwrites1⟩ := ih _ _ _ hread1 hclean.1.1
      obtain ⟨used2, hsp2, hwrites2⟩ := ih _ _ _ hread2 hclean.1.2
      obtain ⟨used3, hsp3, hwrites3⟩ := ih _ _ _ hread3 hclean.2
      refine hfin rfl ?_ (hwrites1.bind (hwrites2.bind hwrites3))
      rw [hsp1, hsp2, hsp3, append_assoc, append_assoc]
    · obtain ⟨seconds, mid, hseconds, hread⟩ := bind_ok.mp hread
      obtain ⟨nanos, mid', hnanos, hout⟩ := bind_ok.mp hread
      obtain ⟨used, hsp, hwrites⟩ := rewrites_readI64Le _ _ _ _ hseconds trivial
      obtain ⟨used', hsp', hwrites'⟩ := rewrites_readU32Le _ _ _ _ hnanos trivial
      by_cases hcan : nanos < 1000000000
      · rw [dif_pos hcan] at hout
        cases hout
        refine hfin rfl ?_ (hwrites.bind hwrites')
        rw [hsp, hsp', append_assoc]
      · rw [dif_neg hcan] at hout
        cases hout
    · cases hread

end

end Beagle.Store
