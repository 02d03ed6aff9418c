/-
A container is covered by its pieces.

Every place where the scan cuts the text is its start, its end, or behind a line feed, so a
cut never falls into a character.  From such a place the next `#lang` line is searched line
by line; a region or a refused header begins there and ends at another such place behind
it.  The invariant of the scan says that the pieces so far tile the text up to the cursor
and that every `#lang` line before the cursor is accounted for.
-/
import Beagle.Native.LanguageContainer

namespace Beagle.LanguageContainer

open List

open Beagle.Native (Text)
open Beagle.Lib (Utf8.encode Utf8.decode Utf8.encode_split Utf8.isSome_decode_iff)

/-! ### Slices -/

variable {src : Text} {f ps low high : Nat} {ln : ContainerLine} {ds : List ContainerDiagnostic}
  {start : Nat}

theorem length_subs (h : f ≤ src.length) : (subs src start f).length = f - start := by
  rw [subs, length_drop, length_take, Nat.min_eq_left h]

theorem getElem?_subs {s i : Nat} (h : s + i < f) : (subs src s f)[i]? = src[s + i]? := by
  rw [subs, getElem?_drop, getElem?_take_of_lt h]

variable {sc : Nat} {a b c d l i o fe : ContainerLine}

theorem subs_append {first third : Nat} (h1 : first ≤ sc) (h2 : sc ≤ third) :
    subs src first sc ++ subs src sc third = subs src first third := by
  simp only [subs, drop_take]
  rw [show third - first = (sc - first) + (third - sc) by omega, take_add,
    drop_drop, show first + (sc - first) = sc by omega]

theorem subs_subs {s first : Nat} (h : s + sc ≤ f) :
    subs (subs src s f) first sc = subs src (s + first) (s + sc) := by
  unfold subs
  rw [take_drop, take_take, drop_drop, Nat.min_eq_left h]

theorem subs_zero_length (src : Text) : subs src 0 src.length = src := by
  rw [subs, take_length, drop_zero]

/-! ### Places where the text may be cut -/

/-- The start of the text, its end, or a place behind a line feed. -/
def Cut (source : Text) (place : Nat) : Prop :=
  place ≤ source.length ∧ (place = 0 ∨ place = source.length ∨
    ∃ before, before + 1 = place ∧ source[before]? = some 10)

theorem cut_zero (src : Text) : Cut src 0 := ⟨Nat.zero_le _, Or.inl rfl⟩

theorem cut_length (src : Text) : Cut src src.length :=
  ⟨Nat.le_refl _, Or.inr (Or.inl rfl)⟩

variable {p : Nat}

theorem cut_behind (h : src[p]? = some 10) : Cut src (p + 1) :=
  ⟨(List.getElem?_eq_some_iff.mp h).1, Or.inr (Or.inr ⟨p, rfl, h⟩)⟩

/-- Up to a cut, and from it on, a text of whole characters is one. -/
theorem encode_cut {src : String} (h : Cut (Utf8.encode src) p) :
    ∃ fr back : String, (Utf8.encode src).take p = Utf8.encode fr ∧
      (Utf8.encode src).drop p = Utf8.encode back := by
  obtain ⟨-, rfl | rfl | ⟨pre, rfl, hpre⟩⟩ := h
  · exact ⟨"", src, rfl, rfl⟩
  · exact ⟨src, "", take_length, drop_length⟩
  · obtain ⟨hlt, hget⟩ := List.getElem?_eq_some_iff.mp hpre
    have hsp : Utf8.encode src = (Utf8.encode src).take pre ++
        10 :: (Utf8.encode src).drop (pre + 1) := by
      rw [← hget, ← drop_eq_getElem_cons hlt, take_append_drop]
    obtain ⟨fr, back, hfr, hb⟩ := Utf8.encode_split (by decide) hsp
    refine ⟨fr, back, ?_, hb⟩
    rw [← hfr, ← hget, take_append_getElem]

theorem utf8Encode_encode (t : String) : utf8Encode (Utf8.encode t) = some (Utf8.encode t) := by
  rw [utf8Encode, if_pos (Utf8.isSome_decode_iff.mpr ⟨t, rfl⟩)]

theorem utf8Encode_cut {src : String} (h : Cut (Utf8.encode src) p) :
    utf8Encode (subs (Utf8.encode src) 0 p) = some (subs (Utf8.encode src) 0 p) := by
  obtain ⟨fr, -, hfr, -⟩ := encode_cut h
  rw [subs, drop_zero, hfr]
  exact utf8Encode_encode fr

variable {s : Nat}

/-- At cuts the bytes of a span can be counted, and there are as many as its places say. -/
theorem containerSpan_cut {src : String} (hst : Cut (Utf8.encode src) s)
    (hfin : Cut (Utf8.encode src) f) :
    containerSpan (Utf8.encode src) s f = some ⟨s, f, s, f⟩ := by
  simp only [containerSpan, utf8Encode_cut hst, utf8Encode_cut hfin, Option.bind_eq_bind,
    Option.bind_some, Option.pure_def, length_subs hst.1, length_subs hfin.1, Nat.sub_zero]

/-- A place where a line starts. -/
def LineStart (source : Text) (place : Nat) : Prop := place < source.length ∧ Cut source place

/-- A place where a `#lang` line starts. -/
def Boundary (source : Text) (place : Nat) : Prop :=
  LineStart source place ∧ languageBoundaryLine (lineAt source place) = true

/-! ### Lines -/

/-- A line from a cut: its slices, and no line feed before its end. -/
structure IsLine (source : Text) (start : Nat) (line : ContainerLine) : Prop where
  start_eq : line.start = start
  low : start ≤ line.contentEnd
  high : line.contentEnd ≤ source.length
  content : line.content = subs source start line.contentEnd
  raw : line.raw = subs source start line.finish
  plain : ∀ i, start ≤ i → i < line.contentEnd → source[i]? ≠ some 10
  ended : (line.hasLf = true ∧ source[line.contentEnd]? = some 10 ∧
      line.finish = line.contentEnd + 1) ∨
    (line.hasLf = false ∧ line.contentEnd = source.length ∧ line.finish = source.length)

theorem isLine_lineAt {src : Text} {s : Nat} (h : s ≤ src.length) :
    IsLine src s (lineAt src s) := by
  obtain ⟨ce, hlow, hh, hpl, ⟨hlf, hl⟩ | ⟨hla, hl⟩⟩ :=
    lineFrom_spec src s s h
  · rw [lineAt, hl]
    exact ⟨rfl, hlow, hh, rfl, rfl, hpl, Or.inl ⟨rfl, hlf, rfl⟩⟩
  · rw [lineAt, hl]
    exact ⟨rfl, hlow, hh, rfl, rfl, hpl, Or.inr ⟨rfl, hla, hla⟩⟩

/-- A line is found again from its content and its end. -/
theorem lineAt_eq {s contentEnd : Nat} (hlow : s ≤ contentEnd)
    (hpl : ∀ i, s ≤ i → i < contentEnd → src[i]? ≠ some 10)
    (hlf : src[contentEnd]? = some 10) :
    lineAt src s = ⟨s, contentEnd, contentEnd + 1, subs src s contentEnd,
      subs src s (contentEnd + 1), true⟩ := by
  have hlt : contentEnd < src.length := (List.getElem?_eq_some_iff.mp hlf).1
  obtain ⟨o, hol, hoh, hop, ho⟩ :=
    lineFrom_spec src s s (by omega)
  have heq : o = contentEnd := by
    rcases Nat.lt_trichotomy o contentEnd with h | h | h
    · rcases ho with ⟨hotl, -⟩ | ⟨hl, -⟩
      · exact absurd hotl (hpl o hol h)
      · omega
    · exact h
    · exact absurd hlf (hop contentEnd hlow h)
  subst heq
  rcases ho with ⟨-, hli⟩ | ⟨hl, -⟩
  · exact hli
  · omega

theorem IsLine.cut_finish (h : IsLine src s ln) : Cut src ln.finish := by
  rcases h.ended with ⟨-, hlf, hfin⟩ | ⟨-, -, hfin⟩
  · rw [hfin]
    exact cut_behind hlf
  · rw [hfin]
    exact cut_length src

/-- Inside a line no other line starts. -/
theorem IsLine.not_lineStart {s place : Nat} (h : IsLine src s ln)
    (hlow : s < place) (hh : place < ln.finish) : ¬ LineStart src place := by
  rintro ⟨hlt, -, rfl | rfl | ⟨pre, rfl, hpre⟩⟩
  · omega
  · omega
  · refine h.plain pre (by omega) ?_ hpre
    rcases h.ended with ⟨-, -, hfin⟩ | ⟨-, hend, hfin⟩
    · omega
    · omega

/-- What ends in a line feed, the line feed included. -/
theorem IsLine.raw_eq (h : IsLine src s ln) (hlf : ln.hasLf = true) :
    ln.raw = ln.content ++ [10] := by
  rcases h.ended with ⟨-, hget, hfin⟩ | ⟨hl, -⟩
  · obtain ⟨hlt, hten⟩ := List.getElem?_eq_some_iff.mp hget
    have hone : subs src ln.contentEnd (ln.contentEnd + 1) = [10] := by
      rw [subs, take_add_one, hget, drop_append_of_le_length (by simp; omega)]
      simp
    rw [h.raw, h.content, hfin, ← subs_append h.low (Nat.le_succ _), hone]
  · rw [hl] at hlf
    simp at hlf

theorem IsLine.not_mem_content (h : IsLine src start ln) :
    (10 : UInt8) ∉ ln.content := by
  rw [h.content]
  intro hmem
  obtain ⟨i, hi⟩ := mem_iff_getElem?.mp hmem
  have hlt : i < ln.contentEnd - start := by
    rw [← length_subs h.high]
    exact (List.getElem?_eq_some_iff.mp hi).1
  rw [getElem?_subs (by omega)] at hi
  exact h.plain (start + i) (by omega) (by omega) hi

/-- A line inside a slice is the line of the text, counted from where the slice starts. -/
theorem lineAt_subs {src : Text} {s o f : Nat} {ln : ContainerLine}
    (h : IsLine src s ln) (hlf : ln.hasLf = true) (ho : o ≤ s)
    (hfin : ln.finish ≤ f) :
    lineAt (subs src o f) (s - o) = ⟨s - o,
      ln.contentEnd - o, ln.finish - o, ln.content, ln.raw, ln.hasLf⟩ := by
  have hlow := h.low
  rcases h.ended with ⟨-, hget, hend⟩ | ⟨hl, -⟩
  · have hpl : ∀ i, s - o ≤ i → i < ln.contentEnd - o → (subs src o f)[i]? ≠ some 10 := by
      intro i hi hilt
      rw [getElem?_subs (by omega)]
      exact h.plain (o + i) (by omega) (by omega)
    have hten : (subs src o f)[ln.contentEnd - o]? = some 10 := by
      rw [getElem?_subs (by omega), show o + (ln.contentEnd - o) = ln.contentEnd by
        omega]
      exact hget
    rw [lineAt_eq (by omega) hpl hten, subs_subs (by omega), subs_subs (by omega), h.content,
      h.raw, hlf]
    simp only [ContainerLine.mk.injEq, true_and, and_true]
    refine ⟨by omega, ?_, ?_⟩
    · congr 1
      · omega
      · omega
    · congr 1
      · omega
      · omega
  · rw [hl] at hlf
    simp at hlf

/-! ### The next `#lang` line -/

/-- **From a cut, the next boundary is the first one.** -/
theorem nextLanguageBoundary_spec (h : Cut src s) :
    Cut src (nextLanguageBoundary src s) ∧ (nextLanguageBoundary src s < src.length →
        Boundary src (nextLanguageBoundary src s)) ∧
      ∀ place, s ≤ place → place < nextLanguageBoundary src s → ¬ Boundary src place := by
  fun_induction nextLanguageBoundary src s with
  | case1 s hlt hl =>
    refine ⟨h, fun _ => ⟨⟨hlt, h⟩, hl⟩, ?_⟩
    intro place hlow hh
    omega
  | case2 s hlt hl ih =>
    have hil := isLine_lineAt h.1
    obtain ⟨hcut, hbnd, hfst⟩ := ih hil.cut_finish
    refine ⟨hcut, hbnd, ?_⟩
    intro place hlow hh hp
    by_cases heq : place = s
    · exact hl (heq ▸ hp.2)
    by_cases hins : place < (lineAt src s).finish
    · exact hil.not_lineStart (by omega) hins hp.1
    · exact hfst place (by omega) hh hp
  | case3 s hge =>
    refine ⟨cut_length src, fun hlt => by omega, ?_⟩
    intro place hlow hh
    omega

/-! ### Headers -/

/-- A span with its places counted from `origin`. -/
def ContainerSpan.relativeTo (span : ContainerSpan) (origin : Nat) : ContainerSpan :=
  ⟨span.start - origin, span.finish - origin, span.startByte - origin, span.finishByte - origin⟩

/-- The same header where it stands by itself. -/
def ContainerHeader.relativeTo (header : ContainerHeader) (origin : Nat) : ContainerHeader :=
  { header with
    span := header.span.relativeTo origin
    fenceDeclarationSpan := header.fenceDeclarationSpan.relativeTo origin }

/-- The span between two places, counted in bytes. -/
def spanOf (start finish : Nat) : ContainerSpan := ⟨start, finish, start, finish⟩

/-- A header that was accepted at `start`. -/
structure HeaderExact (source : Text) (start next : Nat) (header : ContainerHeader) : Prop where
  low : start < next
  cut : Cut source next
  raw : header.raw = subs source start next
  span : header.span = spanOf start next
  plain : (10 : UInt8) ∉ header.fence
  rescans : scanHeader header.raw 0 = some (.accepted (header.relativeTo start) (next - start))

theorem headerProblem_none (h : headerProblem a b c d = none) :
    a.hasLf = true ∧ b.hasLf = true ∧ c.hasLf = true ∧ d.hasLf = true := by
  unfold headerProblem at h
  dsimp only at h
  repeat' split at h
  all_goals simp_all

/-- The verdict on a header depends on what its lines hold and not on where they stand. -/
theorem headerProblem_congr {a' b' c' d' : ContainerLine}
    (ha : a'.content = a.content ∧ a'.hasLf = a.hasLf)
    (hb : b'.content = b.content ∧ b'.hasLf = b.hasLf)
    (hc : c'.content = c.content ∧ c'.hasLf = c.hasLf)
    (hd : d'.content = d.content ∧ d'.hasLf = d.hasLf) :
    headerProblem a' b' c' d' = headerProblem a b c d := by
  cases a'
  cases b'
  cases c'
  cases d'
  obtain ⟨rfl, rfl⟩ := ha
  obtain ⟨rfl, rfl⟩ := hb
  obtain ⟨rfl, rfl⟩ := hc
  obtain ⟨rfl, rfl⟩ := hd
  rfl

theorem not_mem_linePrefixValue {lead : Text} (h : IsLine src s ln) :
    (10 : UInt8) ∉ linePrefixValue ln lead := by
  unfold linePrefixValue
  split
  · exact fun hmem => h.not_mem_content (mem_of_mem_drop hmem)
  · exact not_mem_nil

/-- A slice between two cuts consists of whole characters. -/
theorem encode_subs {src : String} (hle : start ≤ f)
    (hst : Cut (Utf8.encode src) start) (hfin : Cut (Utf8.encode src) f) :
    ∃ slice : String, subs (Utf8.encode src) start f = Utf8.encode slice := by
  obtain ⟨fr, -, hfr, -⟩ := encode_cut hfin
  have hcut : Cut (Utf8.encode fr) start := by
    have hlen : (Utf8.encode fr).length = f := by
      rw [← hfr, length_take, Nat.min_eq_left hfin.1]
    refine ⟨by omega, ?_⟩
    rcases hst.2 with h | h | ⟨pre, hpre, hget⟩
    · exact Or.inl h
    · have := hfin.1
      exact Or.inr (Or.inl (by omega))
    · refine Or.inr (Or.inr ⟨pre, hpre, ?_⟩)
      rw [← hfr, getElem?_take_of_lt (by omega)]
      exact hget
  obtain ⟨-, bk, -, hb⟩ := encode_cut hcut
  exact ⟨bk, by rw [subs, hfr, hb]⟩

/-- The header whose lines are these. -/
def headerOf (source : Text) (start : Nat) (language input output fence : ContainerLine) :
    ContainerHeader :=
  ⟨(strictSpaceWords language.content).getD 1 [], (strictSpaceWords language.content).getD 2 [],
    (strictSpaceWords language.content).getD 3 [], linePrefixValue input (Utf8.encode "  :in "),
    linePrefixValue output (Utf8.encode "  :out "), linePrefixValue fence (Utf8.encode "  :end "),
    subs source start fence.finish, spanOf start fence.finish, spanOf fence.start fence.finish⟩

theorem acceptedHeader_eq {src : String} (hst : Cut (Utf8.encode src) s)
    (hf : Cut (Utf8.encode src) fe.start)
    (hfin : Cut (Utf8.encode src) fe.finish) :
    acceptedHeader (Utf8.encode src) s l i o fe =
      some (.accepted (headerOf (Utf8.encode src) s l i o fe) fe.finish) := by
  simp only [acceptedHeader, containerSpan_cut hst hfin, containerSpan_cut hf hfin,
    Option.bind_eq_bind, Option.bind_some, Option.pure_def, headerOf, spanOf]

/-- The text of a header by itself is scanned to the same header. -/
theorem rescans_header {src : String} (hcut : Cut (Utf8.encode src) start)
    (hl : IsLine (Utf8.encode src) start l)
    (hi : IsLine (Utf8.encode src) l.finish i)
    (hout : IsLine (Utf8.encode src) i.finish o)
    (hf : IsLine (Utf8.encode src) o.finish fe)
    (hp : headerProblem l i o fe = none)
    (hord : start < l.finish ∧ l.finish ≤ i.finish ∧ i.finish ≤ o.finish ∧ o.finish ≤ fe.finish ∧
      fe.finish ≤ (Utf8.encode src).length) :
    scanHeader (subs (Utf8.encode src) start fe.finish) 0 = some (.accepted
        ((headerOf (Utf8.encode src) start l i o fe).relativeTo start)
        (fe.finish - start)) := by
  obtain ⟨h1, h2, h3, h4⟩ := headerProblem_none hp
  obtain ⟨s, hs⟩ := encode_subs (by omega) hcut hf.cut_finish
  have hlen : (subs (Utf8.encode src) start fe.finish).length = fe.finish - start :=
    length_subs hord.2.2.2.2
  have hl1 := @lineAt_subs _ _ start _ _ hl h1 (Nat.le_refl _) (show l.finish ≤ fe.finish by omega)
  have hl2 := @lineAt_subs _ _ start _ _ hi h2 (by omega) (show i.finish ≤ fe.finish by omega)
  have hl3 := @lineAt_subs _ _ start _ _ hout h3 (by omega) (show o.finish ≤ fe.finish by omega)
  have hl4 := @lineAt_subs _ _ start _ _ hf h4 (by omega) (Nat.le_refl fe.finish)
  have hcut4 : Cut (subs (Utf8.encode src) start fe.finish) (o.finish - start) := by
    have := (@isLine_lineAt (subs (Utf8.encode src) start fe.finish)
      (i.finish - start) (by omega)).cut_finish
    rw [hl3] at this
    exact this
  have hce : Cut (subs (Utf8.encode src) start fe.finish) (fe.finish - start) := by
    have := cut_length (subs (Utf8.encode src) start fe.finish)
    rw [hlen] at this
    exact this
  rw [Nat.sub_self] at hl1
  unfold scanHeader
  simp only [hl1, hl2, hl3, hl4]
  generalize hv : headerProblem _ _ _ _ = v
  obtain rfl : v = none := by
    rw [← hv, ← hp]
    exact headerProblem_congr ⟨rfl, rfl⟩ ⟨rfl, rfl⟩ ⟨rfl, rfl⟩ ⟨rfl, rfl⟩
  have hw : subs (subs (Utf8.encode src) start fe.finish) 0 (fe.finish - start) =
      subs (Utf8.encode src) start fe.finish := by
    rw [subs_subs (by omega), Nat.add_zero, show start + (fe.finish - start) = fe.finish by
      omega]
  rw [hs] at hcut4 hce hw ⊢
  dsimp only
  rw [acceptedHeader_eq (cut_zero _) hcut4 hce]
  simp only [headerOf, ContainerHeader.relativeTo, ContainerSpan.relativeTo, spanOf,
    linePrefixValue, hw, hs, hf.start_eq, Nat.sub_self]

/-- **What the scan of a header at a boundary can be.** -/
theorem scanHeader_spec {src : String} (h : LineStart (Utf8.encode src) s) :
    (∃ m, scanHeader (Utf8.encode src) s = some (.rejected ⟨.malformedHeader, m, spanOf s
        (nextLanguageBoundary (Utf8.encode src) (lineAt (Utf8.encode src) s).finish)⟩
        (nextLanguageBoundary (Utf8.encode src) (lineAt (Utf8.encode src) s).finish))) ∨
    ∃ hd next, scanHeader (Utf8.encode src) s = some (.accepted hd next) ∧
      HeaderExact (Utf8.encode src) s next hd := by
  obtain ⟨hlt, hcut⟩ := h
  have hl := isLine_lineAt hcut.1
  have hi := isLine_lineAt hl.cut_finish.1
  have hout := isLine_lineAt hi.cut_finish.1
  have hf := isLine_lineAt hout.cut_finish.1
  have hord := headerLines_ordered hlt
  unfold scanHeader
  dsimp only at hord ⊢
  generalize lineAt (Utf8.encode src) s = l at *
  generalize lineAt (Utf8.encode src) l.finish = i at *
  generalize lineAt (Utf8.encode src) i.finish = o at *
  generalize lineAt (Utf8.encode src) o.finish = fe at *
  cases hp : headerProblem l i o fe with
  | some m =>
    have hn := (nextLanguageBoundary_spec hl.cut_finish).1
    refine Or.inl ⟨m, ?_⟩
    simp only [rejectedHeader, containerSpan_cut hcut hn, Option.bind_eq_bind,
      Option.bind_some, Option.pure_def, spanOf]
  | none =>
    have hst : Cut (Utf8.encode src) fe.start := by
      rw [hf.start_eq]
      exact hout.cut_finish
    refine Or.inr ⟨headerOf (Utf8.encode src) s l i o fe, fe.finish,
      acceptedHeader_eq hcut hst hf.cut_finish, by omega, hf.cut_finish, rfl, rfl,
      not_mem_linePrefixValue hf, ?_⟩
    exact rescans_header hcut hl hi hout hf hp hord

/-! ### Regions -/

/-- At `place` stands the fence with a line feed behind it. -/
def Closes (source : Text) (fence : Text) (place : Nat) : Prop :=
  LineStart source place ∧ fence ++ [10] <+: source.drop place

/-- A line holds the fence and ends in a line feed, if the fence closes there. -/
theorem closes_iff {fe : Text} (hf : (10 : UInt8) ∉ fe) (hp : LineStart src p) :
    Closes src fe p ↔ (lineAt src p).content = fe ∧ (lineAt src p).hasLf = true := by
  have hl := isLine_lineAt hp.2.1
  constructor
  · rintro ⟨-, af, hpo⟩
    have hget : ∀ i, i < fe.length + 1 → src[p + i]? = (fe ++ [10])[i]? := by
      intro i hi
      rw [← getElem?_drop, ← hpo, getElem?_append_left (by simp; omega)]
    have hpl : ∀ i, p ≤ i → i < p + fe.length → src[i]? ≠ some 10 := by
      intro i hlow hh hten
      have hi := hget (i - p) (by omega)
      rw [show p + (i - p) = i by omega, hten, getElem?_append_left (by omega)] at hi
      exact hf (mem_of_getElem? hi.symm)
    have hten : src[p + fe.length]? = some 10 := by
      rw [hget _ (by omega), getElem?_append_right (Nat.le_refl _), Nat.sub_self]
      rfl
    rw [lineAt_eq (Nat.le_add_right _ _) hpl hten]
    refine ⟨?_, rfl⟩
    rw [subs, drop_take, Nat.add_sub_cancel_left, ← hpo, append_assoc, take_left]
  · rintro ⟨hc, hlf⟩
    refine ⟨hp, ?_⟩
    rw [← hc, ← hl.raw_eq hlf, hl.raw, subs, drop_take]
    exact take_prefix _ _

/-- **The closing fence is the first line that closes.** -/
theorem closingFenceOffset_spec {fe : Text} (hf : (10 : UInt8) ∉ fe)
    (h : Cut src start) :
    (∀ cl, closingFenceOffset src start fe = some cl → start ≤ cl ∧ Closes src fe cl ∧
        ∀ place, start ≤ place → place < cl → ¬ Closes src fe place) ∧
    (closingFenceOffset src start fe = none → ∀ place, start ≤ place → ¬ Closes src fe place) := by
  fun_induction closingFenceOffset src start fe with
  | case1 start hlt hl =>
    refine ⟨?_, fun hn => absurd hn (by simp)⟩
    intro cl hcl
    obtain rfl := Option.some.inj hcl
    refine ⟨Nat.le_refl _, (closes_iff hf ⟨hlt, h⟩).mpr hl, ?_⟩
    intro place hlow hh
    omega
  | case2 start hlt hl ih =>
    have hil := isLine_lineAt h.1
    have hst : ¬ Closes src fe start :=
      fun hc => hl ((closes_iff hf ⟨hlt, h⟩).mp hc)
    have hfst : ∀ place, start ≤ place → place < (lineAt src start).finish →
        ¬ Closes src fe place := by
      intro place hlow hh hc
      by_cases heq : place = start
      · exact hst (heq ▸ hc)
      · exact hil.not_lineStart (by omega) hh hc.1
    obtain ⟨hs, hn⟩ := ih hil.cut_finish
    refine ⟨?_, ?_⟩
    · intro cl hcl
      obtain ⟨hlow, hc, he⟩ := hs cl hcl
      have := lt_lineAt_finish hlt
      refine ⟨by omega, hc, ?_⟩
      intro place hp hh
      by_cases hins : place < (lineAt src start).finish
      · exact hfst place hp hins
      · exact he place (by omega) hh
    · intro heq place hp
      by_cases hins : place < (lineAt src start).finish
      · exact hfst place hp hins
      · exact hn heq place (by omega)
  | case3 start hge =>
    refine ⟨fun cl hcl => absurd hcl (by simp), ?_⟩
    intro _ place hp hc
    exact hge (by have := hc.1.1; omega)

/-- A span and the text it marks. -/
structure Marks (source : Text) (span : ContainerSpan) (text : Text) : Prop where
  ordered : span.start ≤ span.finish
  inside : span.finish ≤ source.length
  startByte : span.startByte = span.start
  finishByte : span.finishByte = span.finish
  text : text = subs source span.start span.finish

theorem marks_spanOf (h : s ≤ f) (hfin : f ≤ src.length) :
    Marks src (spanOf s f) (subs src s f) := ⟨h, hfin, rfl, rfl, rfl⟩

/-- A region: its three parts follow each other, its header reads the same by itself, and the
first line behind the header that closes is where it ends. -/
structure RegionExact (source : Text) (region : ContainerRegion) : Prop where
  raw : region.raw = region.header.raw ++ region.payload ++ region.closingFenceRaw
  whole : Marks source region.span region.raw
  header : Marks source region.header.span region.header.raw
  payload : Marks source region.payloadSpan region.payload
  closing : Marks source region.closingFenceSpan region.closingFenceRaw
  tiled : region.header.span.start = region.span.start ∧
    region.header.span.finish = region.payloadSpan.start ∧
    region.payloadSpan.finish = region.closingFenceSpan.start ∧
    region.closingFenceSpan.finish = region.span.finish
  opened : Boundary source region.span.start
  rescans : scanHeader region.header.raw 0 =
    some (.accepted (region.header.relativeTo region.span.start) region.header.raw.length)
  first : ∀ place, region.payloadSpan.start ≤ place → place < region.closingFenceSpan.start →
    ¬ Closes source region.header.fence place
  terminated : region.terminated = true →
    Closes source region.header.fence region.closingFenceSpan.start ∧
      region.closingFenceRaw = region.header.fence ++ [10]
  unterminated : region.terminated = false →
    region.closingFenceRaw = [] ∧ region.span.finish = source.length

variable {hd : ContainerHeader} {cs m : Nat}

/-- The region between a header and what closes it. -/
theorem regionExact {t : Bool} (ho : Boundary src start)
    (hhdr : HeaderExact src start ps hd)
    (hpay : ps ≤ cs) (hc : cs ≤ f)
    (hfin : f ≤ src.length)
    (hfst : ∀ p, ps ≤ p → p < cs → ¬ Closes src hd.fence p)
    (ht : t = true → Closes src hd.fence cs ∧ subs src cs f = hd.fence ++ [10])
    (hu : t = false → cs = f ∧ f = src.length) :
    RegionExact src ⟨hd, subs src ps cs, subs src cs f, subs src start f, spanOf start f,
      spanOf ps cs, spanOf cs f, t⟩ := by
  have hlow := hhdr.low
  refine ⟨?_, marks_spanOf (by omega) hfin, ?_, marks_spanOf hpay (by omega),
    marks_spanOf hc hfin, ?_, ho, ?_, hfst, ht, ?_⟩
  · dsimp only
    rw [hhdr.raw, subs_append (by omega) hpay, subs_append (by omega) hc]
  · dsimp only
    rw [hhdr.span, hhdr.raw]
    exact marks_spanOf (by omega) (by omega)
  · dsimp only
    rw [hhdr.span]
    exact ⟨rfl, rfl, rfl, rfl⟩
  · have hlen : hd.raw.length = ps - start := by
      rw [hhdr.raw, length_subs (by omega)]
    dsimp only [spanOf]
    rw [hlen]
    exact hhdr.rescans
  · intro ht
    obtain ⟨rfl, rfl⟩ := hu ht
    refine ⟨?_, rfl⟩
    dsimp only
    rw [subs, take_length, drop_length]

theorem unterminatedRegion_cut {src : String}
    (hst : Cut (Utf8.encode src) s) (hpay : Cut (Utf8.encode src) ps) :
    unterminatedRegion (Utf8.encode src) s hd ps = some (.unterminated
        ⟨hd, subs (Utf8.encode src) ps (Utf8.encode src).length, [],
          subs (Utf8.encode src) s (Utf8.encode src).length,
          spanOf s (Utf8.encode src).length,
          spanOf ps (Utf8.encode src).length,
          spanOf (Utf8.encode src).length (Utf8.encode src).length, false⟩
        ⟨.unterminatedRegion, "valid region header has no exact standalone closing fence line",
          spanOf s (Utf8.encode src).length⟩) := by
  simp only [unterminatedRegion, containerSpan_cut hst (cut_length _),
    containerSpan_cut hpay (cut_length _), containerSpan_cut (cut_length _) (cut_length _),
    Option.bind_eq_bind, Option.bind_some, Option.pure_def, spanOf]

theorem terminatedRegion_cut {src : String}
    (hst : Cut (Utf8.encode src) s) (hpay : Cut (Utf8.encode src) ps)
    (hc : Cut (Utf8.encode src) cs) :
    terminatedRegion (Utf8.encode src) s hd ps cs = some (.accepted
        ⟨hd, subs (Utf8.encode src) ps cs, (lineAt (Utf8.encode src) cs).raw,
          subs (Utf8.encode src) s (lineAt (Utf8.encode src) cs).finish,
          spanOf s (lineAt (Utf8.encode src) cs).finish,
          spanOf ps cs,
          spanOf cs (lineAt (Utf8.encode src) cs).finish, true⟩
        (lineAt (Utf8.encode src) cs).finish) := by
  have hfin := (isLine_lineAt hc.1).cut_finish
  simp only [terminatedRegion, containerSpan_cut hst hfin,
    containerSpan_cut hpay hc, containerSpan_cut hc hfin,
    Option.bind_eq_bind, Option.bind_some, Option.pure_def, spanOf]

/-- **What the scan of a region at a boundary can be.** -/
theorem scanRegion_spec {src : String} (h : Boundary (Utf8.encode src) s) :
    (∃ dg next, scanRegion (Utf8.encode src) s = some (.malformed dg next) ∧
      dg.code = .malformedHeader ∧ dg.span = spanOf s next ∧ s < next ∧
      Cut (Utf8.encode src) next ∧
      ∀ p, s < p → p < next → ¬ Boundary (Utf8.encode src) p) ∨
    (∃ rg next, scanRegion (Utf8.encode src) s = some (.accepted rg next) ∧
      RegionExact (Utf8.encode src) rg ∧ rg.span = spanOf s next ∧
      rg.terminated = true ∧ s < next ∧ Cut (Utf8.encode src) next) ∨
    ∃ rg dg, scanRegion (Utf8.encode src) s = some (.unterminated rg dg) ∧
      RegionExact (Utf8.encode src) rg ∧
      rg.span = spanOf s (Utf8.encode src).length ∧ rg.terminated = false ∧
      dg.code = .unterminatedRegion ∧ dg.span = rg.span := by
  have hst := h.1.2
  unfold scanRegion
  rcases scanHeader_spec h.1 with ⟨m, hs⟩ | ⟨hd, ps, hs, hhdr⟩
  · have hl := isLine_lineAt hst.1
    have hlow := lt_lineAt_finish h.1.1
    obtain ⟨hcut, -, hfst⟩ := nextLanguageBoundary_spec hl.cut_finish
    have hne := nextLanguageBoundary_bounds hlow.2
    rw [hs]
    refine Or.inl ⟨_, _, rfl, rfl, rfl, by omega, hcut, ?_⟩
    intro p hp hh hbnd
    by_cases hins : p < (lineAt (Utf8.encode src) s).finish
    · exact hl.not_lineStart hp hins hbnd.1
    · exact hfst p (by omega) hh hbnd
  · have hlow := hhdr.low
    obtain ⟨hso, hn⟩ := closingFenceOffset_spec hhdr.plain hhdr.cut
    rw [hs]
    dsimp only
    cases hcl : closingFenceOffset (Utf8.encode src) ps hd.fence with
    | none =>
      have ho := hn hcl
      refine Or.inr (Or.inr ⟨_, _, unterminatedRegion_cut hst hhdr.cut, ?_, rfl, rfl, rfl, rfl⟩)
      have he := regionExact h hhdr hhdr.cut.1 (Nat.le_refl _) (Nat.le_refl _)
        (fun p hp _ => ho p hp) (fun hf => absurd hf Bool.false_ne_true)
        (fun _ => ⟨rfl, rfl⟩)
      rw [show subs (Utf8.encode src) (Utf8.encode src).length
        (Utf8.encode src).length = [] by rw [subs, take_length, drop_length]]
        at he
      exact he
    | some cs =>
      obtain ⟨hpay, hc, hea⟩ := hso cs hcl
      have hl := isLine_lineAt hc.1.2.1
      have hfin := lt_lineAt_finish hc.1.1
      obtain ⟨hco, hlf⟩ := (closes_iff hhdr.plain hc.1).mp hc
      refine Or.inr (Or.inl ⟨_, _, terminatedRegion_cut hst hhdr.cut hc.1.2, ?_, rfl,
        rfl, by omega, hl.cut_finish⟩)
      have he := regionExact h hhdr hpay (Nat.le_of_lt hfin.1) hfin.2 hea
        (fun _ => ⟨hc, by rw [← hl.raw, hl.raw_eq hlf, hco]⟩)
        (fun hf => absurd hf.symm Bool.false_ne_true)
      rw [← hl.raw] at he
      exact he

/-! ### Pieces -/

def ContainerPiece.span : ContainerPiece → ContainerSpan
  | .trivia _ span => span
  | .regionPiece region => region.span

def ContainerPiece.region? : ContainerPiece → Option ContainerRegion
  | .trivia _ _ => none
  | .regionPiece region => some region

/-- The pieces follow each other from `low` to `high`, and none is empty. -/
def Tiles : Nat → List ContainerPiece → Nat → Prop
  | low, [], high => low = high
  | low, piece :: rest, high =>
    piece.span.start = low ∧ low < piece.span.finish ∧ Tiles piece.span.finish rest high

def ContainerSpan.covers (span : ContainerSpan) (place : Nat) : Bool :=
  span.start ≤ place && place < span.finish

/-- One diagnostic covers the place and no region, or one region does; a region that is not
closed has its diagnostic, and any other none. -/
def Covered (regions : List ContainerRegion) (diagnostics : List ContainerDiagnostic)
    (place : Nat) : Prop :=
  (regions.filter (fun region => region.span.covers place) = [] ∧
    ∃ diagnostic, diagnostics.filter (fun diagnostic => diagnostic.span.covers place) =
      [diagnostic] ∧ diagnostic.code = .malformedHeader) ∨
  ∃ region, regions.filter (fun region => region.span.covers place) = [region] ∧
    (region.terminated = true →
      diagnostics.filter (fun diagnostic => diagnostic.span.covers place) = []) ∧
    (region.terminated = false →
      ∃ diagnostic, diagnostics.filter (fun diagnostic => diagnostic.span.covers place) =
        [diagnostic] ∧ diagnostic.code = .unterminatedRegion ∧ diagnostic.span = region.span)

/-- What a scan from `low` to `high` has found. -/
structure Scanned (source : Text) (low high : Nat) (pieces : List ContainerPiece)
    (regions : List ContainerRegion) (diagnostics : List ContainerDiagnostic) : Prop where
  tiles : Tiles low pieces high
  marks : ∀ piece ∈ pieces, Marks source piece.span (renderPiece piece)
  regions_eq : regions = pieces.filterMap ContainerPiece.region?
  exact : ∀ region ∈ regions, RegionExact source region
  regionsWithin : ∀ region ∈ regions, low ≤ region.span.start ∧ region.span.finish ≤ high
  diagnosticsWithin : ∀ diagnostic ∈ diagnostics,
    low ≤ diagnostic.span.start ∧ diagnostic.span.finish ≤ high
  diagnosed : ∀ diagnostic ∈ diagnostics, Boundary source diagnostic.span.start
  covered : ∀ place, low ≤ place → place < high → Boundary source place →
    Covered regions diagnostics place

theorem scanned_nil (src : Text) (p : Nat) : Scanned src p p [] [] [] :=
  ⟨rfl, by simp, rfl, by simp, by simp, by simp, by simp, fun _ _ _ => by omega⟩

theorem tiles_append {fr bk : List ContainerPiece} (hfr : Tiles low fr m)
    (hb : Tiles m bk high) : Tiles low (fr ++ bk) high := by
  induction fr generalizing low with
  | nil =>
    obtain rfl : low = m := hfr
    exact hb
  | cons p fr ih => exact ⟨hfr.1, hfr.2.1, ih hfr.2.2⟩

variable {pis : List ContainerPiece}

theorem le_of_tiles (h : Tiles low pis high) : low ≤ high := by
  induction pis generalizing low with
  | nil => exact Nat.le_of_eq h
  | cons p pis ih => exact Nat.le_trans (Nat.le_of_lt h.2.1) (ih h.2.2)

theorem filter_covers_eq_nil {α : Type} {s : α → ContainerSpan} (xs : List α)
    (h : ∀ x ∈ xs, p < (s x).start ∨ (s x).finish ≤ p) :
    xs.filter (fun x => (s x).covers p) = [] := by
  rw [filter_eq_nil_iff]
  intro x hx
  have := h x hx
  simp only [ContainerSpan.covers, Bool.and_eq_true, decide_eq_true_eq]
  omega

variable {rs : List ContainerRegion}

/-- What was found on one side of a place is not seen from the other side. -/
theorem Scanned.append {mop : List ContainerPiece} {mr : List ContainerRegion}
    {md : List ContainerDiagnostic}
    (h : Scanned src low m pis rs ds)
    (hm : Scanned src m high mop mr md) :
    Scanned src low high (pis ++ mop) (rs ++ mr) (ds ++ md) := by
  have hlow := le_of_tiles h.tiles
  have hh := le_of_tiles hm.tiles
  refine ⟨tiles_append h.tiles hm.tiles, ?_, ?_, ?_, ?_, ?_, ?_, ?_⟩
  · intro pc hp
    exact (List.mem_append.mp hp).elim (h.marks pc) (hm.marks pc)
  · rw [filterMap_append, ← h.regions_eq, ← hm.regions_eq]
  · intro rg hreg
    exact (List.mem_append.mp hreg).elim (h.exact rg) (hm.exact rg)
  · intro rg hreg
    rcases List.mem_append.mp hreg with hreg | hreg
    · have := h.regionsWithin rg hreg
      omega
    · have := hm.regionsWithin rg hreg
      omega
  · intro dg hdiag
    rcases List.mem_append.mp hdiag with hdiag | hdiag
    · have := h.diagnosticsWithin dg hdiag
      omega
    · have := hm.diagnosticsWithin dg hdiag
      omega
  · intro dg hdiag
    exact (List.mem_append.mp hdiag).elim (h.diagnosed dg) (hm.diagnosed dg)
  · intro p hpl hph hbnd
    unfold Covered
    rw [filter_append, filter_append]
    by_cases hs : p < m
    · rw [filter_covers_eq_nil mr fun rg hreg =>
          Or.inl (by have := hm.regionsWithin rg hreg; omega),
        filter_covers_eq_nil md fun dg hdiag =>
          Or.inl (by have := hm.diagnosticsWithin dg hdiag; omega),
        append_nil, append_nil]
      exact h.covered p hpl hs hbnd
    · rw [filter_covers_eq_nil rs fun rg hreg =>
          Or.inr (by have := h.regionsWithin rg hreg; omega),
        filter_covers_eq_nil ds fun dg hdiag =>
          Or.inr (by have := h.diagnosticsWithin dg hdiag; omega),
        nil_append, nil_append]
      exact hm.covered p (by omega) hph hbnd

theorem covers_spanOf (hlow : low ≤ p) (hh : p < high) :
    (spanOf low high).covers p = true := by
  rw [ContainerSpan.covers, spanOf, Bool.and_eq_true]
  exact ⟨decide_eq_true hlow, decide_eq_true hh⟩

theorem appendTrivia_spec {src : String} (hle : low ≤ high) (hlow : Cut (Utf8.encode src) low)
    (hh : Cut (Utf8.encode src) high) (pis : List ContainerPiece) :
    ∃ ad, appendTrivia (Utf8.encode src) pis low high = some (pis ++ ad) ∧
      Tiles low ad high ∧ (∀ p ∈ ad, Marks (Utf8.encode src) p.span
        (renderPiece p)) ∧ ad.filterMap ContainerPiece.region? = [] := by
  unfold appendTrivia
  by_cases heq : low = high
  · rw [if_pos heq]
    exact ⟨[], by rw [append_nil], heq, by simp, rfl⟩
  · rw [if_neg heq, containerSpan_cut hlow hh]
    refine ⟨_, rfl, ⟨rfl, by dsimp only [ContainerPiece.span]; omega, rfl⟩, ?_, rfl⟩
    intro p hp
    rw [mem_singleton.mp hp]
    exact marks_spanOf hle hh.1

variable {ad : List ContainerPiece}

/-- Trivia without a boundary. -/
theorem scanned_passed (ht : Tiles low ad high)
    (hm : ∀ pc ∈ ad, Marks src pc.span (renderPiece pc))
    (hr : ad.filterMap ContainerPiece.region? = [])
    (hn : ∀ p, low ≤ p → p < high → ¬ Boundary src p) :
    Scanned src low high ad [] [] :=
  ⟨ht, hm, hr.symm, by simp, by simp, by simp, by simp,
    fun p hlow hh hbnd => absurd hbnd (hn p hlow hh)⟩

/-- Trivia behind a boundary whose header was refused. -/
theorem scanned_malformed {dg : ContainerDiagnostic}
    (ht : Tiles low ad high)
    (hm : ∀ p ∈ ad, Marks src p.span (renderPiece p))
    (hr : ad.filterMap ContainerPiece.region? = []) (hbnd : Boundary src low)
    (hc : dg.code = .malformedHeader) (hs : dg.span = spanOf low high) :
    Scanned src low high ad [] [dg] := by
  refine ⟨ht, hm, hr.symm, by simp, by simp, ?_, ?_, ?_⟩
  · intro o ho
    rw [mem_singleton.mp ho, hs]
    exact ⟨Nat.le_refl _, Nat.le_refl _⟩
  · intro o ho
    rw [mem_singleton.mp ho, hs]
    exact hbnd
  · intro pl hlow hh _
    refine Or.inl ⟨rfl, dg, ?_, hc⟩
    rw [filter_singleton, hs, covers_spanOf hlow hh, cond_true]

/-- A region, with its diagnostic if it is not closed. -/
theorem scanned_region {rg : ContainerRegion} (hlt : low < high)
    (he : RegionExact src rg) (hs : rg.span = spanOf low high)
    (ht : rg.terminated = true → ds = [])
    (hu : rg.terminated = false → ∃ dg, ds = [dg] ∧
      dg.code = .unterminatedRegion ∧ dg.span = rg.span) :
    Scanned src low high [.regionPiece rg] [rg] ds := by
  have hall : ∀ dg ∈ ds, dg.span = rg.span := by
    intro dg hd
    cases hc : rg.terminated with
    | true =>
      rw [ht hc] at hd
      exact absurd hd not_mem_nil
    | false =>
      obtain ⟨o, ho, -, hs⟩ := hu hc
      rw [ho] at hd
      rw [mem_singleton.mp hd, hs]
  have hst : rg.span.start = low := by rw [hs, spanOf]
  have hfin : rg.span.finish = high := by rw [hs, spanOf]
  refine ⟨⟨hst, by rw [ContainerPiece.span, hfin]; exact hlt, hfin⟩, ?_, rfl, ?_, ?_, ?_, ?_, ?_⟩
  · intro pc hp
    rw [mem_singleton.mp hp]
    exact he.whole
  · intro o ho
    rw [mem_singleton.mp ho]
    exact he
  · intro o ho
    rw [mem_singleton.mp ho, hst, hfin]
    exact ⟨Nat.le_refl _, Nat.le_refl _⟩
  · intro dg hd
    rw [hall dg hd, hst, hfin]
    exact ⟨Nat.le_refl _, Nat.le_refl _⟩
  · intro dg hd
    rw [hall dg hd]
    exact he.opened
  · intro p hlow hh _
    have hcov : rg.span.covers p = true := by
      rw [hs]
      exact covers_spanOf hlow hh
    refine Or.inr ⟨rg, by rw [filter_singleton, hcov, cond_true], ?_, ?_⟩
    · intro hc
      rw [ht hc]
      rfl
    · intro hc
      obtain ⟨dg, hd, hco, hsa⟩ := hu hc
      refine ⟨dg, ?_, hco, hsa⟩
      rw [hd, filter_singleton, hsa, hcov, cond_true]

/-! ### The run -/

/-- **From a cut the scan goes on to the end, and adds to what it has found.** -/
theorem scanFrom_spec {src : String} {cu : Nat} (hcut : Cut (Utf8.encode src) cu)
    (h : Scanned (Utf8.encode src) 0 cu pis rs ds) :
    ∃ cst, scanFrom (Utf8.encode src) cu pis rs ds = some cst ∧ cst.source = Utf8.encode src ∧
      Scanned (Utf8.encode src) 0 (Utf8.encode src).length cst.pieces cst.regions
        cst.diagnostics := by
  induction hl : (Utf8.encode src).length - cu using Nat.strongRecOn generalizing cu pis rs ds with
  | ind l ih =>
    rw [scanFrom]
    by_cases hlt : cu < (Utf8.encode src).length
    · obtain ⟨hbc, hbnd, hfst⟩ := nextLanguageBoundary_spec hcut
      have hb := nextLanguageBoundary_bounds hcut.1
      rw [dif_pos hlt]
      dsimp only
      generalize nextLanguageBoundary (Utf8.encode src) cu = boundary at *
      obtain ⟨ad, hadd, ht, hm, hr⟩ :=
        appendTrivia_spec hb.1 hcut hbc pis
      have hpre := h.append (scanned_passed ht hm hr hfst)
      rw [append_nil, append_nil] at hpre
      rw [hadd]
      dsimp only
      by_cases hla : boundary = (Utf8.encode src).length
      · rw [dif_pos hla]
        rw [hla] at hpre
        exact ⟨_, rfl, rfl, hpre⟩
      · rw [dif_neg hla]
        have ho := hbnd (by omega)
        rcases scanRegion_spec ho with
          ⟨dg, next, hs, hc, hsp, hlow, hn, hno⟩ |
          ⟨region, next, hs, hexact, hsp, hterm, hlow, hn⟩ |
          ⟨region, dg, hs, hexact, hsp, hterm, hc, hsame⟩
        · obtain ⟨p, hp, hpt, hpm, hpr⟩ :=
            appendTrivia_spec (Nat.le_of_lt hlow) hbc hn (pis ++ ad)
          have hd := hpre.append (scanned_malformed hpt hpm hpr ho hc hsp)
          rw [append_nil] at hd
          have hrun := ih _ (by have := hn.1; omega) hn hd rfl
          split
          case h_3 heq =>
            obtain ⟨rfl, rfl⟩ : _ ∧ _ := by simpa using hs.symm.trans heq
            rw [hp]
            exact hrun
          all_goals next heq => exact absurd (hs.symm.trans heq) (by simp)
        · have hd := hpre.append (scanned_region hlow hexact hsp (fun _ => rfl)
            (fun hf => absurd (hterm.symm.trans hf) (by simp)))
          rw [append_nil] at hd
          have hrun := ih _ (by have := hn.1; omega) hn hd rfl
          split
          case h_2 heq =>
            obtain ⟨rfl, rfl⟩ : _ ∧ _ := by simpa using hs.symm.trans heq
            exact hrun
          all_goals next heq => exact absurd (hs.symm.trans heq) (by simp)
        · have hd := hpre.append (scanned_region (by omega) hexact hsp
            (fun htr => absurd (hterm.symm.trans htr) (by simp))
            (fun _ => ⟨dg, rfl, hc, hsame⟩))
          split
          case h_4 heq =>
            obtain ⟨rfl, rfl⟩ : _ ∧ _ := by simpa using hs.symm.trans heq
            exact ⟨_, rfl, rfl, hd⟩
          all_goals next heq => exact absurd (hs.symm.trans heq) (by simp)
    · rw [dif_neg hlt]
      obtain rfl : cu = (Utf8.encode src).length := by have := hcut.1; omega
      exact ⟨_, rfl, rfl, h⟩

/-- Pieces that tile a part of the text spell it. -/
theorem flatMap_of_tiles (ht : Tiles low pis high)
    (hm : ∀ p ∈ pis, Marks src p.span (renderPiece p)) :
    pis.flatMap renderPiece = subs src low high := by
  induction pis generalizing low with
  | nil =>
    obtain rfl : low = high := ht
    rw [flatMap_nil, subs, drop_eq_nil_of_le (length_take_le _ _)]
  | cons p pis ih =>
    obtain ⟨rfl, hlt, hr⟩ := ht
    have hma := hm p mem_cons_self
    rw [flatMap_cons, ih hr fun o ho => hm o (mem_cons_of_mem _ ho), hma.text,
      subs_append (Nat.le_of_lt hlt) (le_of_tiles hr)]

/-- What a container keeps of its text. -/
structure Lossless (source : Text) (container : LanguageContainerCst) : Prop where
  source_eq : container.source = source
  tiles : Tiles 0 container.pieces source.length
  marks : ∀ piece ∈ container.pieces, Marks source piece.span (renderPiece piece)
  rendered : renderExact container = source
  regions_eq : container.regions = container.pieces.filterMap ContainerPiece.region?
  exact : ∀ region ∈ container.regions, RegionExact source region
  diagnosed : ∀ diagnostic ∈ container.diagnostics, Boundary source diagnostic.span.start
  covered : ∀ place, Boundary source place → Covered container.regions container.diagnostics place

/-- **The scan of a container ends, loses nothing and covers every `#lang` line.** -/
theorem container_lossless (source : String) :
    ∃ container, scanContainer (Utf8.encode source) = some container ∧
      Lossless (Utf8.encode source) container := by
  obtain ⟨container, hs, hsrc, h⟩ :=
    scanFrom_spec (cut_zero _) (scanned_nil (Utf8.encode source) 0)
  refine ⟨container, hs, hsrc, h.tiles, h.marks, ?_, h.regions_eq, h.exact, h.diagnosed, ?_⟩
  · rw [renderExact, ← flatMap_eq_foldl, flatMap_of_tiles h.tiles h.marks, subs_zero_length]
  · intro p hbnd
    exact h.covered p (Nat.zero_le _) hbnd.1.1 hbnd

end Beagle.LanguageContainer
