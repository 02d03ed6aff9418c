/-
Canonical fences.

Candidates for a fence differ pairwise and a payload has finitely many lines, so one of the
candidates is none of them.  A region that is written with it closes behind the payload: a closing
line before that would be a line of the payload.
-/
import Beagle.Proofs.ContainerPieces

namespace Beagle.LanguageContainer

open List

open Beagle.Native (Text)
open Beagle.Lib (Utf8.encode Utf8.encode_injective)
open Beagle.Lib.Frames (encode_append numeral decimal_of_mem_numeral digit_of_decimal decimal_iff)

/-! ### Lines of a payload -/

variable {s : Nat} {l : ContainerLine}

theorem IsLine.drop_eq {src : Text} (h : IsLine src s l) :
    src.drop s = l.content ++ src.drop l.contentEnd := by
  have hle : s ≤ (src.take l.contentEnd).length := by
    rw [length_take, Nat.min_eq_left h.high]
    exact h.low
  rw [h.content, subs, ← drop_append_of_le_length hle, take_append_drop]

/-- The lines from the start of one on. -/
theorem IsLine.splitOn_drop {src : Text}
    (h : IsLine src s l) : (src.drop s).splitOn 10 =
      if l.hasLf then l.content :: (src.drop l.finish).splitOn 10
      else [l.content] := by
  rw [h.drop_eq]
  rcases h.ended with ⟨hlf, hget, hfin⟩ | ⟨hlf, hend, -⟩
  · obtain ⟨hlt, hten⟩ := List.getElem?_eq_some_iff.mp hget
    rw [if_pos hlf, drop_eq_getElem_cons hlt, hten, hfin]
    exact splitOn_append_cons_self_of_not_mem h.not_mem_content _
  · rw [hend, drop_length, append_nil, splitOn_eq_singleton h.not_mem_content]
    simp [hlf]

theorem standaloneFrom_iff {pl c : Text} {o : Nat} (ho : o ≤ pl.length)
    (hne : c ≠ []) : standaloneFrom pl c o = true ↔ c ∈ (pl.drop o).splitOn 10 := by
  fun_induction standaloneFrom pl c o with
  | case1 o h => omega
  | case2 o _ h =>
    have hl := isLine_lineAt ho
    refine iff_of_true rfl ?_
    rw [hl.splitOn_drop, ← h]
    split <;> simp
  | case3 o _ h hfin =>
    have hl := isLine_lineAt ho
    refine iff_of_false Bool.false_ne_true ?_
    rw [hl.splitOn_drop, drop_eq_nil_of_le hfin, splitOn_nil]
    split <;> simp [h, hne]
  | case4 o _ h hfin ih =>
    have hl := isLine_lineAt ho
    rw [ih hl.cut_finish.1, hl.splitOn_drop]
    rcases hl.ended with ⟨hlf, -⟩ | ⟨-, -, hend⟩
    · rw [if_pos hlf, mem_cons, or_iff_right h]
    · omega

theorem standaloneLine_iff {pl c : Text} (hne : c ≠ []) :
    standaloneLine pl c = true ↔ c ∈ pl.splitOn 10 := by
  rw [standaloneLine, standaloneFrom_iff (Nat.zero_le _) hne, drop_zero]

/-! ### The fence that is selected -/

theorem fenceCandidate_injective {b : String} {m n : Nat}
    (h : fenceCandidate b m = fenceCandidate b n) : m = n := by
  have hlen : ∀ k : Nat, (b ++ "_" ++ toString k).length ≠ b.length := by
    intro k
    rw [String.length_append, String.length_append]
    have : "_".length = 1 := rfl
    omega
  unfold fenceCandidate at h
  by_cases hm : m = 0
  · by_cases hn : n = 0
    · rw [hm, hn]
    · rw [if_pos hm, if_neg hn] at h
      exact absurd (congrArg String.length h).symm (hlen n)
  · by_cases hn : n = 0
    · rw [if_neg hm, if_pos hn] at h
      exact absurd (congrArg String.length h) (hlen m)
    · rw [if_neg hm, if_neg hn] at h
      exact Lib.Digits.toString_nat_injective ((String.append_right_inj _).mp h)

theorem fenceCharacters_decimal {b : UInt8} (h : Lib.Frames.decimal b = true) :
    fenceCharacters.contains b = true := by
  have hall : ((range 58).drop 48).all (fun n => fenceCharacters.contains (UInt8.ofNat n)) =
      true := by
    decide +kernel
  have hb := decimal_iff.mp h
  have hmem : b.toNat ∈ (range 58).drop 48 := by
    rw [mem_drop_iff_getElem]
    exact ⟨b.toNat - 48, by simp; omega, by simp; omega⟩
  simpa using all_eq_true.mp hall _ hmem

theorem validFence_candidate {b : String} (h : validFence (Utf8.encode b) = true) (n : Nat) :
    validFence (Utf8.encode (fenceCandidate b n)) = true := by
  unfold fenceCandidate
  split
  · exact h
  · rw [encode_append, encode_append]
    cases hb : Utf8.encode b with
    | nil => rw [hb] at h; cases h
    | cons byt bs =>
      rw [hb, validFence, Bool.and_eq_true] at h
      rw [cons_append, cons_append, validFence, Bool.and_eq_true, all_append, all_append, h.2]
      refine ⟨h.1, ?_⟩
      rw [Bool.true_and, Bool.and_eq_true]
      refine ⟨by decide +kernel, all_eq_true.mpr fun d hmem => ?_⟩
      exact fenceCharacters_decimal (decimal_of_mem_numeral hmem)

theorem fenceFrom_some {b pl fence : String} {fu n : Nat}
    (h : fenceFrom b pl fu n = some fence) : (∃ k, fence = fenceCandidate b k) ∧
      standaloneLine (Utf8.encode pl) (Utf8.encode fence) = false := by
  induction fu generalizing n with
  | zero => cases h
  | succ fu ih =>
    rw [fenceFrom] at h
    split at h
    · exact ih h
    · next hs =>
      obtain rfl := Option.some.inj h
      exact ⟨⟨n, rfl⟩, by simpa using hs⟩

theorem fenceFrom_none {b pl : String} {fu n : Nat}
    (h : fenceFrom b pl fu n = none) : ∀ k, n ≤ k → k < n + fu →
      standaloneLine (Utf8.encode pl) (Utf8.encode (fenceCandidate b k)) = true := by
  induction fu generalizing n with
  | zero => intro k hlow hh; omega
  | succ fu ih =>
    rw [fenceFrom] at h
    split at h
    · next hs =>
      intro k hlow hh
      by_cases hk : k = n
      · rw [hk, hs]
      · exact ih h k (by omega) (by omega)
    · cases h

/-- Fuel for one candidate more than the payload has lines is enough. -/
theorem fenceFrom_ends {b pl : String} (hb : validFence (Utf8.encode b) = true) :
    fenceFrom b pl (((Utf8.encode pl).splitOn 10).length + 1) 0 ≠ none := by
  intro h
  have hall := fenceFrom_none h
  have hnd : ((range (((Utf8.encode pl).splitOn 10).length + 1)).map
      fun k => Utf8.encode (fenceCandidate b k)).Nodup :=
    Pairwise.map _ (fun _ _ hne heq => hne (fenceCandidate_injective (Utf8.encode_injective heq)))
      nodup_range
  have hsub : ((range (((Utf8.encode pl).splitOn 10).length + 1)).map
      fun k => Utf8.encode (fenceCandidate b k)) ⊆ (Utf8.encode pl).splitOn 10 := by
    intro l hl
    obtain ⟨k, hk, rfl⟩ := mem_map.mp hl
    refine (standaloneLine_iff ?_).mp (hall k (Nat.zero_le k) (by simpa using mem_range.mp hk))
    intro hnil
    have hv := validFence_candidate hb k
    rw [hnil] at hv
    cases hv
  have hle := (subperm_of_subset hnd hsub).length_le
  rw [length_map, length_range] at hle
  omega

theorem selectCanonicalFence_spec {b pl fence : String} {fu : Nat}
    (h : selectCanonicalFence fu b pl = some fence) :
    validFence (Utf8.encode fence) = true ∧ Utf8.encode fence ∉ (Utf8.encode pl).splitOn 10 := by
  have hb : validFence (Utf8.encode (if validFence (Utf8.encode b) then b else "BGL")) = true := by
    by_cases hv : validFence (Utf8.encode b) = true
    · rw [if_pos hv, hv]
    · rw [if_neg hv]
      decide +kernel
  obtain ⟨⟨k, rfl⟩, hs⟩ := fenceFrom_some h
  have hv := validFence_candidate hb k
  refine ⟨hv, fun hmem => ?_⟩
  have hne : Utf8.encode (fenceCandidate
      (if validFence (Utf8.encode b) then b else "BGL") k) ≠ [] := by
    intro hnil
    rw [hnil] at hv
    cases hv
  rw [(standaloneLine_iff hne).mpr hmem] at hs
  cases hs

/-! ### Words -/

theorem spaceWordsFrom_skip {t : Text} {ws : List Text} (n : Nat) {c : Nat}
    (hn : c + n ≤ t.length)
    (hp : ∀ i, c ≤ i → i < c + n → t[i]? ≠ some 32) :
    spaceWordsFrom t c s ws = spaceWordsFrom t (c + n) s ws := by
  induction n generalizing c with
  | zero => rfl
  | succ n ih =>
    have hlt : c < t.length := by omega
    have hne : t[c] ≠ 32 := fun h =>
      hp c (Nat.le_refl _) (by omega) (by rw [List.getElem?_eq_getElem hlt, h])
    rw [spaceWordsFrom, dif_pos hlt, if_neg hne, ih (by omega) fun i hlow hh =>
      hp i (by omega) (by omega)]
    congr 1
    omega

variable {pre w r : Text} {ws : List Text}

theorem subs_middle (pre w r : Text) :
    subs (pre ++ (w ++ r)) pre.length (pre.length + w.length) = w := by
  rw [subs, ← append_assoc, ← length_append, take_left, drop_left]

/-- A word before a space. -/
theorem spaceWordsFrom_word (hne : w ≠ []) (hp : (32 : UInt8) ∉ w) :
    spaceWordsFrom (pre ++ (w ++ 32 :: r)) pre.length pre.length ws =
      spaceWordsFrom (pre ++ (w ++ 32 :: r)) (pre.length + w.length + 1)
        (pre.length + w.length + 1) (ws ++ [w]) := by
  have hpos : 0 < w.length := length_pos_iff.mpr hne
  rw [spaceWordsFrom_skip w.length (by simp) fun i hlow hh hi => by
    rw [getElem?_append_right hlow, getElem?_append_left (by omega)] at hi
    exact hp (mem_of_getElem? hi)]
  have hlt : pre.length + w.length < (pre ++ (w ++ 32 :: r)).length := by simp
  rw [spaceWordsFrom, dif_pos hlt, if_pos (by simp), if_neg (by omega), subs_middle]

/-- The last word. -/
theorem spaceWordsFrom_last (hne : w ≠ []) (hp : (32 : UInt8) ∉ w) :
    spaceWordsFrom (pre ++ w) pre.length pre.length ws = ws ++ [w] := by
  have hpos : 0 < w.length := length_pos_iff.mpr hne
  rw [spaceWordsFrom_skip w.length (by simp) fun i hlow hh hi => by
    rw [getElem?_append_right hlow] at hi
    exact hp (mem_of_getElem? hi)]
  rw [spaceWordsFrom, dif_neg (by simp), if_neg (by omega)]
  have hm := subs_middle pre w []
  rw [append_nil] at hm
  rw [hm]

theorem strictSpaceWords_four {a b c d : Text} (ha : a ≠ [] ∧ (32 : UInt8) ∉ a)
    (hb : b ≠ [] ∧ (32 : UInt8) ∉ b) (hc : c ≠ [] ∧ (32 : UInt8) ∉ c)
    (hd : d ≠ [] ∧ (32 : UInt8) ∉ d) :
    strictSpaceWords (a ++ 32 :: (b ++ 32 :: (c ++ 32 :: d))) = [a, b, c, d] := by
  rw [strictSpaceWords, if_neg (by simp)]
  have h1 := @spaceWordsFrom_word [] a (b ++ 32 :: (c ++ 32 :: d)) [] ha.1 ha.2
  have h2 := @spaceWordsFrom_word (a ++ [32]) b (c ++ 32 :: d) [a] hb.1 hb.2
  have h3 := @spaceWordsFrom_word (a ++ [32] ++ (b ++ [32])) c d [a, b] hc.1 hc.2
  have h4 := @spaceWordsFrom_last (a ++ [32] ++ (b ++ [32]) ++ (c ++ [32])) d [a, b, c] hd.1 hd.2
  simp only [nil_append, length_nil, Nat.zero_add, append_assoc, cons_append, length_append,
    length_cons, Nat.add_assoc, Nat.add_comm, Nat.add_left_comm] at h1 h2 h3 h4
  rw [h1, h2, h3, h4]

/-! ### Names -/

/-- No space and no line feed, and not empty. -/
def Plain (text : Text) : Prop := text ≠ [] ∧ (32 : UInt8) ∉ text ∧ (10 : UInt8) ∉ text

theorem plain_of_characters {text a : Text} (h : charactersFrom text a = true)
    (ha : a.contains 32 = false ∧ a.contains 10 = false) : Plain text := by
  unfold charactersFrom at h
  rw [Bool.and_eq_true, all_eq_true] at h
  refine ⟨by simpa using h.1, fun hmem => ?_, fun hmem => ?_⟩
  · rw [h.2 32 hmem] at ha
    exact Bool.noConfusion ha.1
  · rw [h.2 10 hmem] at ha
    exact Bool.noConfusion ha.2

theorem plain_of_name {name : Text} (h : validName name = true) : Plain name :=
  plain_of_characters h (by decide +kernel)

theorem Plain.append {l r : Text} (hl : Plain l) (hr : Plain r) : Plain (l ++ r) := by
  refine ⟨by simp [hl.1], fun h => ?_, fun h => ?_⟩
  · exact (mem_append.mp h).elim hl.2.1 hr.2.1
  · exact (mem_append.mp h).elim hl.2.2 hr.2.2

theorem plain_of_languageRef {language : Text} (h : validLanguageRef language = true) :
    Plain language := by
  unfold validLanguageRef at h
  split at h
  · next hf =>
    have hp : ∀ t : Text, t.isEmpty = false ∧ t.contains 32 = false ∧ t.contains 10 = false →
        Plain t := by
      rintro t ⟨h1, h2, h3⟩
      exact ⟨by simpa using h1, by simpa using h2, by simpa using h3⟩
    rcases hf with rfl | rfl | rfl | rfl <;> exact hp _ (by decide +kernel)
  · split at h
    · cases h
    · next sep hsep =>
      simp only [Bool.and_eq_true, decide_eq_true_iff] at h
      obtain ⟨⟨⟨⟨-, -⟩, hsl⟩, hn⟩, hcap⟩ := h
      have hsep64 : language[sep]? = some 64 := by
        obtain ⟨hlt, hval, -⟩ := findIdx?_eq_some_iff_getElem.mp hsep
        rw [List.getElem?_eq_getElem hlt, beq_iff_eq.mp hval]
      have hmid : subs language sep (sep + 1) = [64] := by
        rw [subs, take_add_one, hsep64, drop_append_of_le_length (by simp; omega)]
        simp
      have hw : language =
          subs language 0 sep ++ ([64] ++ subs language (sep + 1) language.length) := by
        rw [← hmid, subs_append (by omega) (by omega), subs_append (by omega) (by omega),
          subs_zero_length]
      rw [hw]
      refine (plain_of_name hn).append (Plain.append ?_ (plain_of_characters hcap
        (by decide +kernel)))
      exact ⟨by simp, by decide, by decide⟩

theorem plain_of_fence {fence : Text} (h : validFence fence = true) : Plain fence := by
  cases fence with
  | nil => cases h
  | cons b bs =>
    rw [validFence, Bool.and_eq_true] at h
    have hfst : Plain [b] := @plain_of_characters _ fenceStartCharacters
      (by simpa [charactersFrom] using h.1) (by decide +kernel)
    by_cases hb : bs = []
    · rw [hb]
      exact hfst
    · exact hfst.append (@plain_of_characters bs fenceCharacters
        (by simpa [charactersFrom, hb] using h.2) (by decide +kernel))

/-! ### The text of a region -/

/-- A line with this content and a line feed. -/
def lineWith (start : Nat) (content : Text) : ContainerLine :=
  ⟨start, start + content.length, start + content.length + 1, content, content ++ [10], true⟩

theorem lineAt_append {s pre content r : Text} (hp : (10 : UInt8) ∉ content)
    (h : s = pre ++ (content ++ 10 :: r)) :
    lineAt s pre.length = lineWith pre.length content := by
  have hget : s[pre.length + content.length]? = some 10 := by
    rw [h]
    simp
  rw [lineAt_eq (Nat.le_add_right _ content.length) ?_ hget]
  · have h1 : subs s pre.length (pre.length + content.length) = content := by
      rw [h, subs_middle]
    have h2 : subs s pre.length (pre.length + content.length + 1) = content ++ [10] := by
      have hm := subs_middle pre (content ++ [10]) r
      rw [append_assoc, singleton_append, length_append, ← h] at hm
      exact hm
    rw [h1, h2, lineWith]
  · intro i hlow hh hi
    rw [h, getElem?_append_right hlow, getElem?_append_left (by omega)] at hi
    exact hp (mem_of_getElem? hi)

theorem linePrefixValue_lead {l value : Text} (hne : value ≠ []) :
    linePrefixValue (lineWith s (l ++ value)) l = value := by
  have hpos : 0 < value.length := length_pos_iff.mpr hne
  rw [linePrefixValue, if_pos ⟨by simp [lineWith]; omega, take_left⟩]
  exact drop_left

/-- Four lines that have no problem are a header. -/
theorem scanHeader_lines {source : String} {a b c d r : Text}
    (h : Utf8.encode source = a ++ 10 :: (b ++ 10 :: (c ++ 10 :: (d ++ 10 :: r))))
    (ha : (10 : UInt8) ∉ a) (hb : (10 : UInt8) ∉ b) (hc : (10 : UInt8) ∉ c) (hd : (10 : UInt8) ∉ d)
    (hp : ∀ s t u v, headerProblem (lineWith s a) (lineWith t b) (lineWith u c)
      (lineWith v d) = none) :
    ∃ s t u v, Cut (Utf8.encode source) (v + d.length + 1) ∧
      (Utf8.encode source).drop (v + d.length + 1) = r ∧
      scanHeader (Utf8.encode source) 0 = some (.accepted (headerOf (Utf8.encode source) 0
        (lineWith s a) (lineWith t b) (lineWith u c) (lineWith v d)) (v + d.length + 1)) := by
  have h1 : lineAt (Utf8.encode source) 0 = lineWith 0 a := @lineAt_append _ [] a _ ha h
  have h2 := @lineAt_append (Utf8.encode source) (a ++ [10]) b (c ++ 10 :: (d ++ 10 :: r)) hb
    (by rw [h]; simp)
  have h3 := @lineAt_append (Utf8.encode source) (a ++ [10] ++ (b ++ [10])) c (d ++ 10 :: r) hc
    (by rw [h]; simp)
  have h4 := @lineAt_append (Utf8.encode source) (a ++ [10] ++ (b ++ [10]) ++ (c ++ [10])) d r hd
    (by rw [h]; simp)
  have hfin : ∀ (n : Nat) (pre co : Text), pre.length = n →
      (pre ++ (co ++ [10])).length = (lineWith n co).finish := by
    rintro n pre co rfl
    simp [lineWith, Nat.add_assoc]
  have hf1 : (a ++ [10]).length = (lineWith 0 a).finish := by simp [lineWith]
  have hf2 := hfin _ _ b hf1
  have hf3 := hfin _ _ c hf2
  rw [hf1] at h2
  rw [hf2] at h3
  rw [hf3] at h4
  have hcut3 := (@isLine_lineAt (Utf8.encode source) (lineWith (lineWith 0 a).finish b).finish
    (by rw [h]; simp [lineWith]; omega)).cut_finish
  rw [h3] at hcut3
  have hcut4 := (isLine_lineAt hcut3.1).cut_finish
  rw [h4] at hcut4
  refine ⟨0, (lineWith 0 a).finish, (lineWith (lineWith 0 a).finish b).finish,
    (lineWith (lineWith (lineWith 0 a).finish b).finish c).finish, hcut4, ?_, ?_⟩
  · have hfr : a ++ [10] ++ (b ++ [10]) ++ (c ++ [10]) ++ (d ++ [10]) ++ r =
        Utf8.encode source := by
      rw [h]
      simp
    rw [← hfr]
    exact drop_left' (by simp [lineWith]; omega)
  · unfold scanHeader
    simp only [h1, h2, h3, h4, hp]
    exact acceptedHeader_eq (cut_zero _) hcut3 hcut4

/-- The four lines of a header. -/
def languageContent (language moduleId region : String) : Text :=
  Utf8.encode "#lang" ++ 32 ::
    (Utf8.encode language ++ 32 :: (Utf8.encode moduleId ++ 32 :: Utf8.encode region))

def headerText (language moduleId region inputs outputs fence : String) : String :=
  "#lang" ++ (" " ++ (language ++ (" " ++ (moduleId ++ (" " ++ (region ++ "\n")))))) ++
    ("  :in " ++ (inputs ++ "\n") ++ ("  :out " ++ (outputs ++ "\n") ++
      ("  :end " ++ (fence ++ "\n"))))

/-- A region that is written: the header, the payload, and the fence on a line. -/
def regionText (language moduleId region inputs outputs fence payload : String) : String :=
  headerText language moduleId region inputs outputs fence ++ (payload ++ (fence ++ "\n"))

/-- What a region is written from. -/
structure RegionParts (language moduleId region inputs outputs : String) : Prop where
  language : validLanguageRef (Utf8.encode language) = true
  moduleId : validName (Utf8.encode moduleId) = true
  region : validName (Utf8.encode region) = true
  inputs : headerVector (Utf8.encode inputs) = true
  outputs : headerVector (Utf8.encode outputs) = true

theorem encode_regionText (l m r i o f p : String) :
    Utf8.encode (regionText l m r i o f p) = languageContent l m r ++ 10 ::
      ((Utf8.encode "  :in " ++ Utf8.encode i) ++ 10 ::
        ((Utf8.encode "  :out " ++ Utf8.encode o) ++ 10 ::
          ((Utf8.encode "  :end " ++ Utf8.encode f) ++ 10 ::
            (Utf8.encode p ++ (Utf8.encode f ++ [10]))))) := by
  have hlf : Utf8.encode "\n" = [10] := by decide +kernel
  have hsp : Utf8.encode " " = [32] := by decide +kernel
  unfold regionText headerText languageContent
  simp only [encode_append, hlf, hsp, append_assoc, cons_append, nil_append]

variable {language moduleId region inputs outputs fence pl : String}

theorem words_languageContent (h : RegionParts language moduleId region inputs outputs) :
    strictSpaceWords (languageContent language moduleId region) =
      [Utf8.encode "#lang", Utf8.encode language, Utf8.encode moduleId, Utf8.encode region] := by
  have hl := plain_of_languageRef h.language
  have hm := plain_of_name h.moduleId
  have hr := plain_of_name h.region
  exact strictSpaceWords_four ⟨by decide +kernel, by decide +kernel⟩ ⟨hl.1, hl.2.1⟩
    ⟨hm.1, hm.2.1⟩ ⟨hr.1, hr.2.1⟩

theorem not_mem_languageContent (h : RegionParts language moduleId region inputs outputs) :
    (10 : UInt8) ∉ languageContent language moduleId region := by
  have hl := (plain_of_languageRef h.language).2.2
  have hm := (plain_of_name h.moduleId).2.2
  have hr := (plain_of_name h.region).2.2
  have hla : (10 : UInt8) ∉ Utf8.encode "#lang" := by decide +kernel
  simp [languageContent, hl, hm, hr, hla]

theorem ne_nil_of_headerVector {v : Text} (h : headerVector v = true) : v ≠ [] := by
  rintro rfl
  cases h

/-- The four lines are a header. -/
theorem headerProblem_parts (h : RegionParts language moduleId region inputs outputs)
    (hf : validFence (Utf8.encode fence) = true) (s t u v : Nat) :
    headerProblem (lineWith s (languageContent language moduleId region))
      (lineWith t (Utf8.encode "  :in " ++ Utf8.encode inputs))
      (lineWith u (Utf8.encode "  :out " ++ Utf8.encode outputs))
      (lineWith v (Utf8.encode "  :end " ++ Utf8.encode fence)) = none := by
  have hin := ne_nil_of_headerVector h.inputs
  have hout := ne_nil_of_headerVector h.outputs
  have hw : strictSpaceWords (lineWith s (languageContent language moduleId region)).content =
      [Utf8.encode "#lang", Utf8.encode language, Utf8.encode moduleId, Utf8.encode region] :=
    words_languageContent h
  have hlf : ∀ n c, (lineWith n c).hasLf = true := fun _ _ => rfl
  unfold headerProblem
  dsimp only
  rw [linePrefixValue_lead hin, linePrefixValue_lead hout,
    linePrefixValue_lead (plain_of_fence hf).1, hw, hlf, hlf, hlf, hlf, if_neg (by simp), if_neg (by simp [h.language]),
    if_neg (by simp [h.moduleId, h.region]), if_neg (by simp [hin, h.inputs]),
    if_neg (by simp [hout, h.outputs]), if_neg (by simp [(plain_of_fence hf).1, hf])]

theorem languageBoundaryLine_content (l m r : String) :
    languageBoundaryLine (lineWith 0 (languageContent l m r)) = true := by
  have hlen : (Utf8.encode "#lang").length = 5 := by decide +kernel
  have ht : (languageContent l m r).take 5 = Utf8.encode "#lang" := by
    rw [← hlen, languageContent, take_left]
  have hget : (languageContent l m r)[5]? = some 32 := by
    rw [← hlen, languageContent, getElem?_append_right (Nat.le_refl _), Nat.sub_self]
    rfl
  have hle : 5 ≤ (languageContent l m r).length := by simp [languageContent, hlen]
  simp [languageBoundaryLine, lineWith, ht, hget, hle]

/-! ### The closing line -/

/-- Where the fence closes inside the payload, it is a line of the payload. -/
theorem mem_splitOn_of_prefix {p f pre : Text} (hf : (10 : UInt8) ∉ f)
    (hla : p.getLast? = some 10) (hpre : f ++ [10] <+: p ++ (f ++ [10]))
    (hb : pre = [] ∨ pre.getLast? = some 10) : f ∈ (pre ++ p).splitOn 10 := by
  obtain ⟨q, rfl⟩ := getLast?_eq_some_iff.mp hla
  -- the first line of the rest of the payload
  obtain ⟨line, r, hq, hl⟩ := eq_append_cons_of_mem (show (10 : UInt8) ∈ q ++ [10] by simp)
  have heq : f = line := by
    rw [hq, append_assoc, cons_append] at hpre
    obtain ⟨x, hx⟩ := hpre
    have h1 := congrArg (splitOn 10) hx
    rw [append_assoc, singleton_append, splitOn_append_cons_self_of_not_mem hf,
      splitOn_append_cons_self_of_not_mem hl] at h1
    exact (cons.inj h1).1
  rw [hq, heq]
  rcases hb with rfl | hb
  · rw [nil_append, splitOn_append_cons_self_of_not_mem hl]
    exact mem_cons_self
  · obtain ⟨b, rfl⟩ := getLast?_eq_some_iff.mp hb
    rw [append_assoc, singleton_append, splitOn_append_cons_self,
      splitOn_append_cons_self_of_not_mem hl]
    simp

/-- Behind a header, the fence closes at the end of the payload. -/
theorem closingFenceOffset_payload {s p f : Text} {n : Nat} (hcut : Cut s n)
    (hd : s.drop n = p ++ (f ++ [10])) (hf : (10 : UInt8) ∉ f)
    (hend : p = [] ∨ p.getLast? = some 10) (hfr : f ∉ p.splitOn 10) :
    closingFenceOffset s n f = some (n + p.length) ∧ Closes s f (n + p.length) := by
  have hlen : s.length = n + (p.length + (f.length + 1)) := by
    have h := congrArg List.length hd
    rw [length_drop] at h
    simp only [length_append, length_singleton] at h
    have := hcut.1
    omega
  have hget : ∀ i, s[n + i]? = (p ++ (f ++ [10]))[i]? := fun i => by
    rw [← hd, getElem?_drop]
  have hfro : s.drop (n + p.length) = f ++ [10] := by
    rw [← drop_drop, hd, drop_left]
  have hclo : Closes s f (n + p.length) := by
    refine ⟨⟨by omega, by omega, ?_⟩, hfro ▸ prefix_refl _⟩
    rcases hend with rfl | hend
    · exact hcut.2
    · obtain ⟨q, rfl⟩ := getLast?_eq_some_iff.mp hend
      refine Or.inr (Or.inr ⟨n + q.length, by simp; omega, ?_⟩)
      rw [hget]
      simp
  refine ⟨?_, hclo⟩
  obtain ⟨hs, hn⟩ := closingFenceOffset_spec hf hcut
  cases hc : closingFenceOffset s n f with
  | none => exact absurd hclo (hn hc _ (Nat.le_add_right _ _))
  | some cl =>
    obtain ⟨hlow, hcl, hfst⟩ := hs cl hc
    rcases Nat.lt_trichotomy cl (n + p.length) with hlt | heq | hgt
    · exfalso
      obtain ⟨k, rfl⟩ := Nat.exists_eq_add_of_le hlow
      have hk : k < p.length := by omega
      refine hfr ?_
      have hpre := hcl.2
      rw [← drop_drop, hd, drop_append_of_le_length (Nat.le_of_lt hk)] at hpre
      have hl : (p.drop k).getLast? = some 10 := by
        rw [getLast?_drop, if_neg (by omega)]
        exact hend.resolve_left (by rintro rfl; cases hk)
      have hb : p.take k = [] ∨ (p.take k).getLast? = some 10 := by
        by_cases hz : k = 0
        · exact Or.inl (by rw [hz, take_zero])
        · obtain ⟨b, hbk, hten⟩ := (hcl.1.2.2.resolve_left (by omega)).resolve_left (by omega)
          obtain ⟨j, rfl⟩ := Nat.exists_eq_succ_of_ne_zero hz
          obtain rfl : b = n + j := by omega
          rw [hget, getElem?_append_left (by omega)] at hten
          refine Or.inr ?_
          rw [take_add_one, hten]
          simp
      have hmem := mem_splitOn_of_prefix hf hl hpre hb
      rwa [take_append_drop] at hmem
    · rw [heq]
    · exact absurd hclo (hfst _ (Nat.le_add_right _ _) hgt)

/-- The header that is read back. -/
structure HeaderRead (header : ContainerHeader)
    (language moduleId region inputs outputs fence : String) : Prop where
  language : header.languageRef = Utf8.encode language
  moduleId : header.moduleId = Utf8.encode moduleId
  region : header.regionName = Utf8.encode region
  inputs : header.inputsText = Utf8.encode inputs
  outputs : header.outputsText = Utf8.encode outputs
  fence : header.fence = Utf8.encode fence

/-- The whole text is one region. -/
structure OneRegion (text : Text) (region : ContainerRegion) : Prop where
  scanned : scanContainer text = some ⟨text, [.regionPiece region], [region], []⟩
  terminated : region.terminated = true

theorem scanContainer_one {t : Text} {rg : ContainerRegion} (hpos : 0 < t.length)
    (hb : nextLanguageBoundary t 0 = 0)
    (hs : scanRegion t 0 = some (.accepted rg t.length)) :
    scanContainer t = some ⟨t, [.regionPiece rg], [rg], []⟩ := by
  rw [scanContainer]
  unfold scanFrom
  rw [dif_pos hpos]
  simp only [hb, appendTrivia, if_true, Nat.ne_of_lt hpos, dite_false]
  split
  · next h => rw [hb, hs] at h; cases h
  · next h =>
    rw [hb, hs] at h
    obtain ⟨rfl, rfl⟩ := RegionScan.accepted.inj (Option.some.inj h)
    unfold scanFrom
    rw [dif_neg (Nat.lt_irrefl _)]
    rfl
  · next h => rw [hb, hs] at h; cases h
  · next h => rw [hb, hs] at h; cases h

/-- **What is written with a fence that is no line of the payload is one region.** -/
theorem scanContainer_regionText (h : RegionParts language moduleId region inputs outputs)
    (hend : Utf8.encode pl = [] ∨ (Utf8.encode pl).getLast? = some 10)
    (hin : (10 : UInt8) ∉ Utf8.encode inputs) (hout : (10 : UInt8) ∉ Utf8.encode outputs)
    (hv : validFence (Utf8.encode fence) = true)
    (hf : Utf8.encode fence ∉ (Utf8.encode pl).splitOn 10) :
    ∃ rg, OneRegion (Utf8.encode (regionText language moduleId region inputs outputs fence pl)) rg ∧
      HeaderRead rg.header language moduleId region inputs outputs fence ∧
      rg.payload = Utf8.encode pl := by
  have hpf := plain_of_fence hv
  have hin2 : (10 : UInt8) ∉ Utf8.encode "  :in " ++ Utf8.encode inputs := by
    rw [mem_append, not_or]
    exact ⟨by decide +kernel, hin⟩
  have hout2 : (10 : UInt8) ∉ Utf8.encode "  :out " ++ Utf8.encode outputs := by
    rw [mem_append, not_or]
    exact ⟨by decide +kernel, hout⟩
  have hf2 : (10 : UInt8) ∉ Utf8.encode "  :end " ++ Utf8.encode fence := by
    rw [mem_append, not_or]
    exact ⟨by decide +kernel, hpf.2.2⟩
  have hli := encode_regionText language moduleId region inputs outputs fence pl
  have hfst : lineAt (Utf8.encode (regionText language moduleId region inputs outputs fence
      pl)) 0 = lineWith 0 (languageContent language moduleId region) :=
    @lineAt_append _ [] _ _ (not_mem_languageContent h) hli
  obtain ⟨s, t, u, v, hcut, hdr, hs⟩ := scanHeader_lines hli (not_mem_languageContent h)
    hin2 hout2 hf2 (headerProblem_parts h hv)
  generalize hn : v + (Utf8.encode "  :end " ++ Utf8.encode fence).length + 1 = n at *
  generalize hsrc : regionText language moduleId region inputs outputs fence pl = source at *
  obtain ⟨hc, hcl⟩ := closingFenceOffset_payload hcut hdr hpf.2.2 hend hf
  have hlin : lineAt (Utf8.encode source) (n + (Utf8.encode pl).length) =
      lineWith (n + (Utf8.encode pl).length) (Utf8.encode fence) := by
    have hsp : Utf8.encode source = ((Utf8.encode source).take n ++ Utf8.encode pl) ++
        (Utf8.encode fence ++ 10 :: []) := by
      rw [append_assoc, ← hdr, take_append_drop]
    have hl := lineAt_append hpf.2.2 hsp
    rwa [length_append, length_take, Nat.min_eq_left hcut.1] at hl
  have hlen : (lineAt (Utf8.encode source) (n + (Utf8.encode pl).length)).finish =
      (Utf8.encode source).length := by
    have hd := congrArg List.length hdr
    rw [length_drop] at hd
    simp only [length_append, length_singleton] at hd
    have := hcut.1
    simp only [hlin, lineWith]
    omega
  have hpos : 0 < (Utf8.encode source).length := by
    rw [hli, length_append, length_cons]
    exact Nat.add_pos_right _ (Nat.succ_pos _)
  have hb : nextLanguageBoundary (Utf8.encode source) 0 = 0 := by
    rw [nextLanguageBoundary, dif_pos hpos, hfst, if_pos (languageBoundaryLine_content ..)]
  generalize hhdr : headerOf (Utf8.encode source) 0 _ _ _ _ = header at hs
  have hr : HeaderRead header language moduleId region inputs outputs fence := by
    rw [← hhdr]
    have hw := words_languageContent h
    exact ⟨by rw [headerOf, lineWith, hw]; rfl, by rw [headerOf, lineWith, hw]; rfl,
      by rw [headerOf, lineWith, hw]; rfl, linePrefixValue_lead (ne_nil_of_headerVector h.inputs),
      linePrefixValue_lead (ne_nil_of_headerVector h.outputs), linePrefixValue_lead hpf.1⟩
  have hpay : subs (Utf8.encode source) n (n + (Utf8.encode pl).length) = Utf8.encode pl := by
    rw [subs, drop_take, Nat.add_sub_cancel_left, hdr, take_left]
  obtain ⟨rg, hrg, ht, hh, hp⟩ : ∃ rg,
      scanRegion (Utf8.encode source) 0 = some (.accepted rg (Utf8.encode source).length) ∧
        rg.terminated = true ∧ rg.header = header ∧ rg.payload = Utf8.encode pl := by
    unfold scanRegion
    rw [hs]
    dsimp only
    rw [hr.fence, hc]
    dsimp only
    rw [terminatedRegion_cut (cut_zero _) hcut hcl.1.2, hlen]
    exact ⟨_, rfl, rfl, rfl, hpay⟩
  exact ⟨rg, ⟨scanContainer_one hpos hb hrg, ht⟩, hh ▸ hr, hp⟩

/-! ### Fences protect payloads -/

/-- **Canonical fences protect payloads.**  For every base and payload a fence is found, and it is
valid and no line of the payload; what is written with it is read back as one region, if the header
vectors stand on one line. -/
theorem canonicalFence_protects (base payload : String) :
    ∃ fence, (∃ fuel, selectCanonicalFence fuel base payload = some fence) ∧
      validFence (Utf8.encode fence) = true ∧
      Utf8.encode fence ∉ (Utf8.encode payload).splitOn 10 ∧
      ∀ language moduleId region inputs outputs : String,
        RegionParts language moduleId region inputs outputs →
        (10 : UInt8) ∉ Utf8.encode inputs → (10 : UInt8) ∉ Utf8.encode outputs →
        (Utf8.encode payload = [] ∨ (Utf8.encode payload).getLast? = some 10) →
        ∃ rg, OneRegion
            (Utf8.encode (regionText language moduleId region inputs outputs fence payload)) rg ∧
          HeaderRead rg.header language moduleId region inputs outputs fence ∧
          rg.payload = Utf8.encode payload := by
  obtain ⟨fuel, fence, hsel⟩ : ∃ fuel fence,
      selectCanonicalFence fuel base payload = some fence := by
    refine ⟨_, Option.ne_none_iff_exists'.mp (@fenceFrom_ends _ payload ?_)⟩
    split
    · assumption
    · decide +kernel
  obtain ⟨hv, hf⟩ := selectCanonicalFence_spec hsel
  refine ⟨fence, ⟨fuel, hsel⟩, hv, hf, ?_⟩
  intro language moduleId region inputs outputs h hin hout hend
  exact scanContainer_regionText h hend hin hout hv hf

/-- A payload that holds a `#lang` line and the fence that is tried first. -/
theorem guarded_payload_read : ∃ fence rg,
    OneRegion (Utf8.encode (regionText "bgl" "m" "r" "[]" "[]" fence "#lang bgl x y\nBGL\n")) rg ∧
      rg.payload = Utf8.encode "#lang bgl x y\nBGL\n" := by
  obtain ⟨fence, -, -, -, h⟩ := canonicalFence_protects "BGL" "#lang bgl x y\nBGL\n"
  obtain ⟨rg, hone, -, hp⟩ := h "bgl" "m" "r" "[]" "[]"
    ⟨by decide +kernel, by decide +kernel, by decide +kernel, by decide +kernel, by decide +kernel⟩
    (by decide +kernel) (by decide +kernel) (Or.inr (by decide +kernel))
  exact ⟨fence, rg, hone, hp⟩

/-- A vector over two lines. -/
def brokenVector : String := "[\n]"

/-- A vector over two lines is one, and a header with it is not read back. -/
theorem brokenVector_not_read : RegionParts "bgl" "m" "r" brokenVector "[]" ∧
      selectCanonicalFence 1 "BGL" "" = some "BGL" ∧
      ¬ ∃ rg, OneRegion (Utf8.encode (regionText "bgl" "m" "r" brokenVector "[]" "BGL" "")) rg := by
  refine ⟨⟨by decide +kernel, by decide +kernel, by decide +kernel, by decide +kernel,
    by decide +kernel⟩, ?_, ?_⟩
  · decide +kernel
  · intro h
    obtain ⟨rg, h⟩ := h
    have hn : (scanContainer (Utf8.encode (regionText "bgl" "m" "r" brokenVector "[]" "BGL"
      ""))).map (·.regions) = some [] := by decide +kernel
    rw [h.scanned] at hn
    cases hn

end Beagle.LanguageContainer
