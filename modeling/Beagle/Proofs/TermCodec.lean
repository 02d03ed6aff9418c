/-
The Term codec has one encoding for a Term.

What is written for a Term is read back as that Term, byte for byte.  What is read as
a Term is what is written for it, unless a NaN was read: the bits of any NaN are
accepted, and every NaN is written with the canonical ones.  Reading ends on every
byte string, inside it, with a value or with its first error.
-/
import Beagle.Proofs.Walks

namespace Beagle.Store

open Beagle.Lib Beagle.Lib.Reader

/-- A decoder that may begin to read: it has met no error and is inside its bytes. -/
structure Ready (decoder : Cells.Decoder) : Prop where
  clean : decoder.error = none
  ahead : decoder.position ≤ decoder.limit
  inside : decoder.limit ≤ decoder.bytes.length

/-- What a decoder may still read. -/
def window (decoder : Cells.Decoder) : List UInt8 :=
  (decoder.bytes.take decoder.limit).drop decoder.position

/-- The bytes between two places of a decoder. -/
def between (before after : Cells.Decoder) : List UInt8 :=
  subvec before.bytes before.position after.position

theorem Ready.sees {d : Cells.Decoder} (h : Ready d) : Sees d ⟨window d, ⟨d.nodes, ()⟩⟩ :=
  ⟨h.clean, h.ahead, h.inside, rfl, rfl⟩

section

variable {msb mn md dp : Nat} {encoder : Cells.Encoder}

/-- **What is written is read back, to its end.** -/
theorem read_of_append {t : Term} {e' : Cells.Encoder} (hc : encoder.error = none)
    (happ : Cells.appendTermLimited msb mn md t dp encoder = ((), e')) (hc' : e'.error = none) :
    ∃ us, e'.bytes = encoder.bytes ++ us ∧ ∀ d m, Ready d →
      d.nodes = encoder.nodes → window d = us ++ m →
        Cells.readTermLimited msb mn md dp d = (t, { d with
              position := d.position + us.length, nodes := e'.nodes }) := by
  have hpu := pushes_appendTermLimited msb mn md t dp _ rfl
  have hrea := agrees_readTermLimited msb mn md _ dp rfl
  cases hw : appendTermLimited msb mn (md + 1 - dp) t ⟨encoder.bytes, encoder.nodes⟩ with
  | error msg =>
    have hce := hpu.error hc hw
    rw [happ] at hce
    exact absurd (hc'.symm.trans hce) nofun
  | ok out =>
    obtain ⟨u, w⟩ := out
    have hp := hpu.ok hc hw
    rw [happ] at hp
    cases hp
    obtain ⟨us, hbs, hb⟩ := roundTrips_term msb mn _ t _ _ hw
    refine ⟨us, hbs, ?_⟩
    intro d m hr hn hwi
    have hre := hb () m
    dsimp only at hre
    rw [← hn, ← hwi] at hre
    obtain ⟨hval, hs⟩ := hrea.ok hr.sees hre
    have hm := hrea.keeps d
    have hlen := hs.length
    have hst := hr.sees.length
    dsimp only at hlen hst
    rw [hwi, List.length_append] at hst
    rw [hm.limit] at hlen
    have hpos : d.position + us.length = (Cells.readTermLimited msb mn md dp d).2.position := by
      omega
    refine Prod.ext hval ?_
    rw [hpos, ← hm.bytes, ← hm.limit, hr.clean, ← hs.clean]
    exact congrArg (fun nodes => Cells.Decoder.mk _ _ _ nodes _) hs.nodes.symm

/-- **What is read as a Term without a NaN is what is written for it.** -/
theorem append_of_read {d d' : Cells.Decoder} {t : Term} (hr : Ready d)
    (hrea : Cells.readTermLimited msb mn md dp d
      = (t, d')) (hcl : d'.error = none) (hnan : t.hasNan = false)
    (he : encoder.error = none) (hn : encoder.nodes = d.nodes) :
    Cells.appendTermLimited msb mn md t dp encoder
      = ((), ⟨encoder.bytes ++ between d d', d'.nodes, none⟩) := by
  have hp := pushes_appendTermLimited msb mn md t dp _ rfl
  have hre := agrees_readTermLimited msb mn md _ dp rfl
  cases hs : readTermLimited msb mn (md + 1 - dp)
      (⟨window d, ⟨d.nodes, ()⟩⟩ : Input UInt8 (Decoder Unit)) with
  | error f =>
    obtain ⟨m, -, hc⟩ := hre.error hr.sees hs
    rw [hrea] at hc
    exact absurd (hcl.symm.trans hc) nofun
  | ok out =>
    obtain ⟨a, l⟩ := out
    obtain ⟨hval, hse⟩ := hre.ok hr.sees hs
    have hm := hre.keeps d
    rw [hrea] at hval hse hm
    dsimp only at hval hse hm
    subst hval
    obtain ⟨used, hsp, hwr⟩ := rewrites_term _ _ _ _ _ _ hs hnan
    dsimp only at hsp hwr
    have hst := hr.sees.length
    have hlen := hse.length
    dsimp only at hst
    rw [hsp, List.length_append] at hst
    rw [hm.limit] at hlen
    have hu : between d d' = used := by
      have hspa := @Sees.span _ _ hr.sees used.length (by
        dsimp only
        rw [hsp, List.length_append]
        omega)
      have hpos : d'.position = d.position + used.length := by omega
      unfold between
      rw [hpos, hspa]
      dsimp only
      rw [hsp, List.take_left]
    rw [hu, ← hse.nodes]
    have hw := hwr encoder.bytes
    rw [← hn] at hw
    exact hp.ok he hw

end

/-! ### Digests -/

/-- The bytes a digest is taken of. -/
def canonicalBytes (term : Term) : Option (List UInt8) :=
  let encoder := (Cells.appendTerm term 0 ⟨[], 0, none⟩).2
  match encoder.error with
  | some _ => none
  | none => some encoder.bytes

theorem canonicalBytes_injective {t u : Term} {bytes : List UInt8}
    (ht : canonicalBytes t = some bytes) (hu : canonicalBytes u = some bytes) : t = u := by
  have hback : ∀ {term : Term}, canonicalBytes term = some bytes →
      (Cells.readTermLimited Cells.rpcV2MaxStringBytes Cells.rpcV2MaxTermNodes
        Cells.termCodecV1MaxDepth 0 ⟨bytes, 0, bytes.length, 0, none⟩).1 = term := by
    intro term hterm
    unfold canonicalBytes at hterm
    dsimp only at hterm
    cases herr : (Cells.appendTerm term 0 ⟨[], 0, none⟩).2.error with
    | some message =>
      rw [herr] at hterm
      cases hterm
    | none =>
      rw [herr] at hterm
      have hbs := Option.some.inj hterm
      obtain ⟨used, hused, hread⟩ := read_of_append
        (show (⟨[], 0, none⟩ : Cells.Encoder).error = none from rfl) rfl herr
      have hall : bytes = used := hbs.symm.trans hused
      have hread := hread ⟨bytes, 0, bytes.length, 0, none⟩ [] ⟨rfl, Nat.zero_le _, Nat.le_refl _⟩
        rfl (by
          unfold window
          rw [List.take_length, List.append_nil]
          exact hall)
      rw [hread]
  rw [← hback ht, ← hback hu]

/-- **The Term codec is canonical but for NaNs.** -/
theorem term_codec_is_canonical (maxStringBytes maxNodes maxDepth depth : Nat) :
    (∀ term encoder encoder', encoder.error = none →
      Cells.appendTermLimited maxStringBytes maxNodes maxDepth term depth encoder = ((), encoder') →
      encoder'.error = none →
        ∃ used, encoder'.bytes = encoder.bytes ++ used ∧ ∀ decoder more, Ready decoder →
          decoder.nodes = encoder.nodes → window decoder = used ++ more →
            Cells.readTermLimited maxStringBytes maxNodes maxDepth depth decoder
              = (term, { decoder with
                  position := decoder.position + used.length, nodes := encoder'.nodes })) ∧
    (∀ decoder decoder' term, Ready decoder →
      Cells.readTermLimited maxStringBytes maxNodes maxDepth depth decoder = (term, decoder') →
      decoder'.error = none → term.hasNan = false →
        (∀ encoder : Cells.Encoder, encoder.error = none → encoder.nodes = decoder.nodes →
          Cells.appendTermLimited maxStringBytes maxNodes maxDepth term depth encoder
            = ((), ⟨encoder.bytes ++ between decoder decoder', decoder'.nodes, none⟩)) ∧
        ∀ other other', Ready other → other.nodes = decoder.nodes →
          Cells.readTermLimited maxStringBytes maxNodes maxDepth depth other = (term, other') →
          other'.error = none → between other other' = between decoder decoder') ∧
    (∀ decoder, Moves decoder
      (Cells.readTermLimited maxStringBytes maxNodes maxDepth depth decoder).2) ∧
    (∀ sha256Bytes term bytes, canonicalBytes term = some bytes →
      Cells.canonicalTermSha256Result sha256Bytes term
        = ⟨true, sha256Bytes bytes, "rpc/none", ""⟩) ∧
    ∀ t u bytes, canonicalBytes t = some bytes → canonicalBytes u = some bytes → t = u := by
  refine ⟨?_, ?_, keeps_readTermLimited _ _ _ _, ?_, ?_⟩
  · intro term encoder encoder' hc happ hc'
    exact read_of_append hc happ hc'
  · intro decoder decoder' term hr hre hc hnan
    refine ⟨fun encoder => append_of_read hr hre hc hnan, ?_⟩
    intro other other' ho hn hro hco
    have hf : (⟨[], decoder.nodes, none⟩ : Cells.Encoder).error = none := rfl
    have hfst := append_of_read hr hre hc hnan hf rfl
    have hsnd := append_of_read ho hro hco hnan hf hn.symm
    rw [hfst] at hsnd
    exact (congrArg (fun out => out.2.bytes) hsnd).symm
  · intro sha256Bytes term bytes hbs
    unfold canonicalBytes at hbs
    unfold Cells.canonicalTermSha256Result
    dsimp only at hbs ⊢
    cases herr : (Cells.appendTerm term 0 ⟨[], 0, none⟩).2.error with
    | some m =>
      rw [herr] at hbs
      cases hbs
    | none =>
      rw [herr] at hbs
      rw [Option.some.inj hbs]
  · intro t u bytes
    exact canonicalBytes_injective

/-! ### A string, and a NaN that is not written as it was read -/

/-- The bytes of a string are read back as that string. -/
theorem string_reads_back :
    ∃ encoder', Cells.appendTermLimited 1048576 65536 256 (.atom (.string "a")) 0 ⟨[], 0, none⟩
        = ((), encoder') ∧
      Cells.readTermLimited 1048576 65536 256 0 ⟨[1, 1, 0, 0, 0, 97], 0, 6, 0, none⟩
        = (.atom (.string "a"), ⟨[1, 1, 0, 0, 0, 97], 6, 6, 1, none⟩) := by
  have happ : Cells.appendTermLimited 1048576 65536 256 (.atom (.string "a")) 0 ⟨[], 0, none⟩
      = ((), ⟨[1, 1, 0, 0, 0, 97], 1, none⟩) := rfl
  refine ⟨_, happ, ?_⟩
  obtain ⟨used, hu, hr⟩ :=
    (term_codec_is_canonical 1048576 65536 256 0).1 _ _ _ rfl happ rfl
  have hu : [1, 1, 0, 0, 0, 97] = used := hu
  subst hu
  exact hr ⟨[1, 1, 0, 0, 0, 97], 0, 6, 0, none⟩ [] ⟨rfl, by decide, by decide⟩ rfl rfl

/-- The tag of a float, and bits of a NaN that are not the canonical ones. -/
def foreignNan : Cells.Decoder := ⟨[3, 1, 0, 0, 0, 0, 0, 240, 127], 0, 9, 0, none⟩

/-- They are read, and what is written for the value is other bytes. -/
theorem foreign_nan_is_not_written_back : ∃ decoder' term, Ready foreignNan ∧
      Cells.readTermLimited 1048576 65536 256 0 foreignNan = (term, decoder') ∧
      decoder'.error = none ∧
      (Cells.appendTermLimited 1048576 65536 256 term 0 ⟨[], 0, none⟩).2.error = none ∧
      (Cells.appendTermLimited 1048576 65536 256 term 0 ⟨[], 0, none⟩).2.bytes
        ≠ between foreignNan decoder' := by
  have hr : Ready foreignNan := ⟨rfl, by decide, by decide⟩
  have hsh : readTermLimited 1048576 65536 257
      (⟨window foreignNan, ⟨foreignNan.nodes, ()⟩⟩ : Input UInt8 (Decoder Unit))
        = .ok (.atom (.float .nan), ⟨[], ⟨1, ()⟩⟩) := by rfl
  obtain ⟨hval, hs⟩ :=
    (agrees_readTermLimited 1048576 65536 256 257 0 rfl).ok hr.sees hsh
  have hm := keeps_readTermLimited 1048576 65536 256 0 foreignNan
  have hpos := hs.length
  rw [hm.limit] at hpos
  have hpos : (Cells.readTermLimited 1048576 65536 256 0 foreignNan).2.position = 9 := hpos
  refine ⟨_, _, hr, Prod.ext hval rfl, hs.clean, by decide, ?_⟩
  unfold between
  rw [hpos]
  decide

end Beagle.Store
