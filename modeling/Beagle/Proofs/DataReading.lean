/-
What the reader of data makes of written data.

Each kind of token is read off the front of the bytes, with whatever comes behind it.  The
kinds and values of the events do not depend on where the text starts, and neither does
what the EDN reader makes of them.
-/
import Beagle.Native.Edn

namespace Beagle.DatumReader

open List
open Beagle.Native (Text)

theorem readFrom_nil (offset : Nat) : readFrom offset [] [] = ⟨[], none⟩ := by
  rw [readFrom, if_pos rfl]

variable {byte : UInt8} {st : List Kind} {fs : List (Kind × Text)} {offset : Nat} {st' : List Kind}
  {m : List UInt8} {w : Nat}

theorem readFrom_skipped (h : readStep offset byte m st = .skipped w) :
    readFrom offset (byte :: m) st = readFrom (offset + w) (m.drop (w - 1)) st := by
  rw [readFrom, h]

theorem readFrom_read {event : ReaderEvent}
    (h : readStep offset byte m st = .read w event st') :
    readFrom offset (byte :: m) st = (readFrom (offset + w) (m.drop (w - 1)) st').after event := by
  rw [readFrom, h]

/-! ### Tokens -/

/-- The bytes are read without an error, as events of these kinds and values. -/
def ReadsAs (rest : List UInt8) (stack : List Kind) (forms : List (Kind × Text)) : Prop :=
  ∀ offset, ∃ events, readFrom offset rest stack = ⟨events, none⟩ ∧
    events.map (fun event => (event.kind, event.value)) = forms

theorem readsAs_nil : ReadsAs [] [] [] := fun offset => ⟨[], readFrom_nil offset, rfl⟩

theorem readsAs_skipped
    (h : ∀ offset, readStep offset byte m st = .skipped w)
    (hr : ReadsAs (m.drop (w - 1)) st fs) : ReadsAs (byte :: m) st fs := by
  intro offset
  rw [readFrom_skipped (h offset)]
  exact hr _

theorem readsAs_read {k : Kind} {v l : Text}
    {d : Nat} (h : ∀ offset, readStep offset byte m st = .read w ⟨k, v, l, offset, d⟩ st')
    (hre : ReadsAs (m.drop (w - 1)) st' fs) :
    ReadsAs (byte :: m) st ((k, v) :: fs) := by
  intro offset
  obtain ⟨es, hr, hf⟩ := hre (offset + w)
  rw [readFrom_read (h offset), hr]
  exact ⟨_, rfl, by rw [map_cons, hf]⟩

theorem readsAs_blank (hb : whitespace byte = true)
    (hr : ReadsAs m st fs) : ReadsAs (byte :: m) st fs :=
  readsAs_skipped (fun _ => if_pos hb) hr

theorem readsAs_mapOpen (hr : ReadsAs m (.mapOpen :: st) fs) :
    ReadsAs (123 :: m) st ((.mapOpen, []) :: fs) :=
  readsAs_read (fun _ => rfl) hr

theorem readsAs_mapClose (hr : ReadsAs m st fs) :
    ReadsAs (125 :: m) (.mapOpen :: st) ((.mapClose, []) :: fs) :=
  readsAs_read (fun _ => rfl) hr

theorem scanString_quote (r : List UInt8) (v : Text) (w : Nat) :
    scanString (34 :: r) v w = .ok (v, w + 1) := by
  rw [scanString.eq_def]
  rfl

theorem scanString_other (hq : byte ≠ 34) (hbsl : byte ≠ 92) (r : List UInt8) (v : Text) (w : Nat) :
    scanString (byte :: r) v w = scanString r (v ++ [byte]) (w + 1) := by
  rw [scanString.eq_def]
  dsimp only
  rw [if_neg hq, if_neg hbsl]

/-- A value without quotes and backslashes is read up to the quote. -/
theorem scanString_plain {v : Text} (hval : ∀ byte ∈ v, byte ≠ 34 ∧ byte ≠ 92)
    (r : List UInt8) (fr : Text) (w : Nat) :
    scanString (v ++ 34 :: r) fr w = .ok (fr ++ v, w + v.length + 1) := by
  induction v generalizing fr w with
  | nil =>
    rw [nil_append, scanString_quote, append_nil]
    rfl
  | cons byte v ih =>
    obtain ⟨hq, hbsl⟩ := hval byte mem_cons_self
    rw [cons_append, scanString_other hq hbsl,
      ih fun b hb => hval b (mem_cons_of_mem _ hb), append_assoc,
      singleton_append, length_cons]
    congr 2
    omega

theorem readsAs_string {v : Text} (hval : ∀ byte ∈ v, byte ≠ 34 ∧ byte ≠ 92)
    {rest : List UInt8} (hr : ReadsAs rest st fs) :
    ReadsAs (34 :: (v ++ 34 :: rest)) st ((.string, v) :: fs) := by
  have hs : ∀ offset, readStep offset 34 (v ++ 34 :: rest) st = .read (1 + v.length + 1)
        ⟨.string, v, renderStringLiteral v, offset, st.length⟩ st := by
    intro offset
    have hsc := scanString_plain hval 
    simp [readStep, whitespace, opening, closing, hsc]
  refine readsAs_read hs ?_
  have hd : (v ++ 34 :: rest).drop (1 + v.length + 1 - 1) = rest := by
    have hlen : 1 + v.length + 1 - 1 = (v ++ [34]).length := by
      rw [length_append, length_singleton]
      omega
    rw [hlen, append_cons v 34 rest, drop_left]
  rwa [hd]

/-- What may stand behind an atom. -/
def Delimited (rest : List UInt8) : Prop := ∀ byte ∈ rest.head?, delimiter byte = true

theorem scanAtom_append {value r : List UInt8}
    (hval : ∀ byte ∈ value, delimiter byte = false) (hr : Delimited r) :
    scanAtom (value ++ r) = value := by
  unfold scanAtom
  rw [takeWhile_append_of_pos fun byte hb => by rw [hval byte hb]; rfl]
  cases r with
  | nil => rw [takeWhile_nil, append_nil]
  | cons byte r =>
    rw [takeWhile_cons_of_neg, append_nil]
    rw [hr byte rfl]
    exact Bool.false_ne_true

/-- A byte that may begin an atom: no delimiter, no quote and no `#`. -/
def starts (byte : UInt8) : Bool := !delimiter byte && byte != 39 && byte != 35

theorem readsAs_atom {first : UInt8} {value rest : List UInt8} (hfst : starts first = true)
    (hval : ∀ byte ∈ value, delimiter byte = false) (hdelim : Delimited rest)
    (hrest : ReadsAs rest st fs) :
    ReadsAs (first :: (value ++ rest)) st ((atomKind (first :: value), first :: value) :: fs) := by
  unfold starts at hfst
  simp only [Bool.and_eq_true, Bool.not_eq_true', bne_iff_ne] at hfst
  obtain ⟨⟨hnot, hquote⟩, hhash⟩ := hfst
  have hparts := hnot
  unfold delimiter at hparts
  simp only [Bool.or_eq_false_iff, beq_eq_false_iff_ne] at hparts
  obtain ⟨⟨⟨⟨⟨⟨⟨⟨⟨⟨⟨⟨hblank, h40⟩, h41⟩, h91⟩, h93⟩, h123⟩, h125⟩, h34⟩, h59⟩, h94⟩, h96⟩, h126⟩, -⟩ :=
    hparts
  have hall : ∀ byte ∈ first :: value, delimiter byte = false := by
    intro byte hbyte
    rcases mem_cons.mp hbyte with rfl | hbyte
    · exact hnot
    · exact hval byte hbyte
  have hatom : scanAtom (first :: (value ++ rest)) = first :: value := scanAtom_append hall hdelim
  have hopening : opening first = false := by
    unfold opening
    simp [h40, h91, h123]
  have hclosing : closing first = false := by
    unfold closing
    simp [h41, h93, h125]
  have hkind : prefixKind first (value ++ rest) = none := by
    unfold prefixKind
    rw [if_neg hquote, if_neg h96, if_neg h94, if_neg h126]
  have hstep : ∀ offset, readStep offset first (value ++ rest) st = .read (first :: value).length
        ⟨atomKind (first :: value), first :: value, first :: value, offset, st.length⟩ st := by
    intro offset
    unfold readStep
    rw [hblank, hopening, hclosing, hkind, hatom, if_neg Bool.false_ne_true, if_neg h59,
      if_neg fun h => hhash h.1, if_neg Bool.false_ne_true, if_neg Bool.false_ne_true, if_neg h34]
    rfl
  refine readsAs_read hstep ?_
  rw [length_cons, Nat.add_sub_cancel, drop_left]
  exact hrest

end Beagle.DatumReader

namespace Beagle.Edn

open Beagle.Native (Text)
open Beagle.DatumReader List

/-! ### EDN -/

/-- The event without its place. -/
def EdnEvent.at0 : EdnEvent → EdnEvent
  | .mapStart _ => .mapStart 0
  | .mapEnd _ => .mapEnd 0
  | .vectorStart _ => .vectorStart 0
  | .vectorEnd _ => .vectorEnd 0
  | .keyword _ value => .keyword 0 value
  | .string _ value => .string 0 value
  | .integer _ value => .integer 0 value
  | .boolean _ value => .boolean 0 value
  | .nil _ => .nil 0

/-- A scalar of this kind and value is read as this event. -/
def ScalarAs (form : Kind × Text) (value : EdnEvent) : Prop :=
  ∀ event : ReaderEvent, (event.kind, event.value) = form →
    (event.kind ≠ .mapOpen ∧ event.kind ≠ .vectorOpen ∧ event.kind ≠ .mapClose ∧
      event.kind ≠ .vectorClose) ∧ ∃ read, scalarEvent event = .ok read ∧ read.at0 = value

theorem decodeFrom_scalar {n : Nat} {e : ReaderEvent} {value : EdnEvent}
    (hk : e.kind ≠ .mapOpen ∧ e.kind ≠ .vectorOpen ∧ e.kind ≠ .mapClose ∧
      e.kind ≠ .vectorClose) (hval : scalarEvent e = .ok value)
    (rm : List ReaderEvent) (map : Bool) (its rs : Nat)
    (o : List DecodeStackEntry) :
    decodeFrom n (e :: rm) (⟨map, its⟩ :: o) rs =
      (decodeFrom n rm (⟨map, its + 1⟩ :: o) rs).after value := by
  rw [decodeFrom, if_neg (not_or.mpr ⟨hk.1, hk.2.1⟩), if_neg hk.2.2.1, if_neg hk.2.2.2, hval]
  rfl

variable {vs : List EdnEvent}

/-- Scalars in a bracket are read one after the other. -/
theorem decodeFrom_scalars {n : Nat} {fs : List (Kind × Text)}
    (h : List.Forall₂ ScalarAs fs vs) {es : List ReaderEvent}
    (hf : es.map (fun e => (e.kind, e.value)) = fs)
    (rm : List ReaderEvent) (map : Bool) (its rs : Nat) (o : List DecodeStackEntry)
    {b : List EdnEvent}
    (hb : decodeFrom n rm (⟨map, its + fs.length⟩ :: o) rs = .decoded b) :
    ∃ rd, decodeFrom n (es ++ rm) (⟨map, its⟩ :: o) rs =
      .decoded (rd ++ b) ∧ rd.map EdnEvent.at0 = vs := by
  induction h generalizing es its with
  | nil =>
    obtain rfl := map_eq_nil_iff.mp hf
    exact ⟨[], hb, rfl⟩
  | @cons f v fs vs hs _ ih =>
    cases es with
    | nil => cases hf
    | cons e es =>
      obtain ⟨hfo, hre⟩ := List.cons.inj hf
      obtain ⟨hk, first, hfst, hat0⟩ := hs e hfo
      obtain ⟨rd, hr, hv⟩ := ih hre (its + 1) (by
        rw [← hb, length_cons]
        congr 3
        omega)
      refine ⟨first :: rd, ?_, by rw [map_cons, hat0, hv]⟩
      rw [cons_append, decodeFrom_scalar hk hfst, hr]
      rfl

/-- A map of an even number of scalars. -/
theorem decode_map {t : Text} {fs : List (Kind × Text)}
    (hr : ReadsAs t [] ((.mapOpen, []) :: (fs ++ [(.mapClose, [])])))
    (hf : List.Forall₂ ScalarAs fs vs) (he : fs.length % 2 = 0) :
    ∃ es, decode t = .decoded es ∧ es.map EdnEvent.at0 = .mapStart 0 :: (vs ++ [.mapEnd 0]) := by
  obtain ⟨es, hevs, hk⟩ := hr 0
  obtain ⟨od, r, rfl, ho, hre⟩ := map_eq_cons_iff.mp hk
  obtain ⟨ss, l, rfl, hs, hl⟩ := map_eq_append_iff.mp hre
  obtain ⟨c, n', rfl, hcl, hn⟩ := map_eq_cons_iff.mp hl
  obtain rfl := map_eq_nil_iff.mp hn
  have hok : od.kind = .mapOpen := congrArg Prod.fst ho
  have hck : c.kind = .mapClose := congrArg Prod.fst hcl
  have hend : decodeFrom t.length [c] [⟨true, 0 + fs.length⟩] 1 = .decoded [.mapEnd c.offset] := by
    rw [decodeFrom, hck, if_neg (by decide), if_pos rfl]
    dsimp only
    rw [if_neg (by decide), if_neg (by rw [Nat.zero_add, he]; exact not_not_intro rfl)]
    rfl
  obtain ⟨rd, hdec, hv⟩ := decodeFrom_scalars hf hs [c] true 0 1 [] hend
  refine ⟨.mapStart od.offset :: (rd ++ [.mapEnd c.offset]), ?_, ?_⟩
  · unfold decode readEvents
    rw [hevs]
    dsimp only
    rw [decodeFrom, hok, if_pos (Or.inl rfl)]
    show (decodeFrom t.length (ss ++ [c]) [⟨true, 0⟩] 1).after _ = _
    rw [hdec]
    rfl
  · rw [map_cons, map_append, hv]
    rfl

end Beagle.Edn
