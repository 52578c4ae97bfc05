import Akio.Bloomfilter.Model
import Akio.Lib.Mix
import Mathlib.Data.List.Basic

/-!
# What the hash of a key keeps apart

The text is taken in as blocks of four bytes, with up to three bytes after them.
-/

namespace Akio.Bloomfilter

open Function Bitset

variable {before after block block' key : List uchar} {h seed : uint32_t} {d0 d1 d2 d3 : uchar}

/-- The four bytes that one turn of the loop takes in. -/
abbrev Block := uchar × uchar × uchar × uchar

def bytes : Block → List uchar := fun (d0, d1, d2, d3) => [d0, d1, d2, d3]

def text (blocks : List Block) : List uchar := blocks.flatMap bytes

/-- What one turn of the loop makes of the hash. -/
def mix (h : uint32_t) : Block → uint32_t := fun (d0, d1, d2, d3) =>
  h * m ^^^ (load d0 d1 d2 d3 * m ^^^ (load d0 d1 d2 d3 * m) >>> r) * m

/-- What is done after the `switch`. -/
def final (h : uint32_t) : uint32_t := (h ^^^ h >>> 13) * m ^^^ ((h ^^^ h >>> 13) * m) >>> 15

theorem murmurhash2_eq : murmurhash2 key seed =
    final (murmurTail (murmurLoop (seed ^^^ BitVec.ofNat 32 key.length) key).1
      (murmurLoop (seed ^^^ BitVec.ofNat 32 key.length) key).2) := rfl

/-! ## Blocks -/

theorem murmurLoop_text (blocks : List Block) (data : List uchar) :
    murmurLoop h (text blocks ++ data) = murmurLoop (blocks.foldl mix h) data := by
  induction blocks generalizing h with
  | nil => rfl
  | cons block blocks ih => exact ih

theorem murmurLoop_short {data : List uchar} (hdata : data.length < 4) : murmurLoop h data = (h, data) := by
  match data with
  | [] | [_] | [_, _] | [_, _, _] => rfl
  | _ :: _ :: _ :: _ :: _ => simp only [List.length_cons] at hdata; omega

theorem exists_blocks : ∀ data : List uchar, ∃ blocks rest, data = text blocks ++ rest ∧ rest.length < 4
  | [] => ⟨[], [], rfl, by decide⟩
  | [d0] => ⟨[], [d0], rfl, by simp⟩
  | [d0, d1] => ⟨[], [d0, d1], rfl, by simp⟩
  | [d0, d1, d2] => ⟨[], [d0, d1, d2], rfl, by simp⟩
  | d0 :: d1 :: d2 :: d3 :: data => by
    obtain ⟨blocks, rest, heq, hrest⟩ := exists_blocks data
    exact ⟨(d0, d1, d2, d3) :: blocks, rest, congrArg ([d0, d1, d2, d3] ++ ·) heq, hrest⟩

theorem text_length (blocks : List Block) : (text blocks).length = 4 * blocks.length := by
  induction blocks with
  | nil => rfl
  | cons block blocks ih =>
    rw [text, List.flatMap_cons, List.length_append, ← text, ih, List.length_cons]
    show 4 + 4 * blocks.length = _
    omega

theorem exists_text (hbefore : 4 ∣ before.length) : ∃ blocks, before = text blocks := by
  obtain ⟨blocks, rest, rfl, hrest⟩ := exists_blocks before
  rw [List.length_append, text_length] at hbefore
  obtain rfl : rest = [] := List.length_eq_zero_iff.mp (by omega)
  exact ⟨blocks, List.append_nil _⟩

theorem exists_bytes (hblock : block.length = 4) : ∃ b, block = bytes b := by
  obtain ⟨d0, d1, d2, d3, rfl⟩ := List.length_eq_four.mp hblock
  exact ⟨(d0, d1, d2, d3), rfl⟩

theorem text_around {blocks blocks' : List Block} {b : Block} {rest : List uchar} :
    text blocks ++ bytes b ++ (text blocks' ++ rest) = text (blocks ++ b :: blocks') ++ rest := by
  simp only [text, List.flatMap_append, List.flatMap_cons, List.append_assoc]

/-! ## Nothing is lost -/

theorem load_bit {i : Nat} (hi : i < 8) :
    (load d0 d1 d2 d3).getLsbD i = d0.getLsbD i ∧ (load d0 d1 d2 d3).getLsbD (8 + i) = d1.getLsbD i ∧
    (load d0 d1 d2 d3).getLsbD (16 + i) = d2.getLsbD i ∧ (load d0 d1 d2 d3).getLsbD (24 + i) = d3.getLsbD i := by
  have hout : ∀ (d : uchar) n, 8 ≤ n → d.getLsbD n = false := fun d n hn => BitVec.getLsbD_of_ge d n hn
  simp only [load, BitVec.getLsbD_or, BitVec.getLsbD_shiftLeft, BitVec.getLsbD_setWidth]
  refine ⟨?_, ?_, ?_, ?_⟩ <;> grind

theorem load_injective {e0 e1 e2 e3 : uchar} (h : load d0 d1 d2 d3 = load e0 e1 e2 e3) :
    d0 = e0 ∧ d1 = e1 ∧ d2 = e2 ∧ d3 = e3 := by
  have hd := fun i (hi : i < 8) => @load_bit d0 d1 d2 d3 i hi
  have he := fun i (hi : i < 8) => h ▸ @load_bit e0 e1 e2 e3 i hi
  refine ⟨BitVec.eq_of_getLsbD_eq fun i hi => ?_, BitVec.eq_of_getLsbD_eq fun i hi => ?_,
    BitVec.eq_of_getLsbD_eq fun i hi => ?_, BitVec.eq_of_getLsbD_eq fun i hi => ?_⟩
  · exact (hd i hi).1.symm.trans (he i hi).1
  · exact (hd i hi).2.1.symm.trans (he i hi).2.1
  · exact (hd i hi).2.2.1.symm.trans (he i hi).2.2.1
  · exact (hd i hi).2.2.2.symm.trans (he i hi).2.2.2

theorem load_xor :
    d2.setWidth 32 <<< 16 ^^^ d1.setWidth 32 <<< 8 ^^^ d0.setWidth 32 = load d0 d1 d2 0 := by
  have hout : ∀ (d : uchar) n, 8 ≤ n → d.getLsbD n = false := fun d n hn => BitVec.getLsbD_of_ge d n hn
  apply BitVec.eq_of_getLsbD_eq
  intro i hi
  simp only [load, BitVec.getLsbD_xor, BitVec.getLsbD_or, BitVec.getLsbD_shiftLeft, BitVec.getLsbD_setWidth]
  grind

theorem m_odd : m.toNat % 2 = 1 := by decide

theorem final_injective : Injective final :=
  (Mix.xor_shift_injective (by decide)).comp
    ((Mix.mul_injective m_odd).comp (Mix.xor_shift_injective (by decide)))

theorem mix_mixing : Mix.Mixing mix where
  state := fun (d0, d1, d2, d3) => (Mix.xor_injective _).comp (Mix.mul_injective m_odd)
  input := by
    rintro h ⟨d0, d1, d2, d3⟩ ⟨e0, e1, e2, e3⟩ heq
    have hk := (Mix.mul_injective m_odd).comp
      ((Mix.xor_shift_injective (by decide : 0 < r)).comp (Mix.mul_injective m_odd))
    obtain ⟨rfl, rfl, rfl, rfl⟩ := load_injective (hk (Mix.xor_injective' _ heq))
    rfl

/-- The word that the `switch` takes in. -/
def tailWord : List uchar → uint32_t
  | [d0] => load d0 0 0 0
  | [d0, d1] => load d0 d1 0 0
  | [d0, d1, d2] => load d0 d1 d2 0
  | _ => 0

theorem murmurTail_eq {data : List uchar} (hne : data ≠ []) (hdata : data.length < 4) :
    murmurTail h data = (h ^^^ tailWord data) * m := by
  match data with
  | [] => exact absurd rfl hne
  | [d0] =>
    rw [tailWord, ← load_xor]
    simp [murmurTail]
  | [d0, d1] =>
    rw [tailWord, ← load_xor]
    simp [murmurTail, BitVec.xor_assoc]
  | [d0, d1, d2] =>
    rw [tailWord, ← load_xor, murmurTail]
    simp only [BitVec.xor_assoc]
  | _ :: _ :: _ :: _ :: _ =>
    simp only [List.length_cons] at hdata
    omega

theorem murmurTail_state {data : List uchar} (hdata : data.length < 4) :
    Injective fun h => murmurTail h data := by
  by_cases hne : data = []
  · subst hne
    exact injective_id
  · simp only [murmurTail_eq hne hdata]
    exact (Mix.mul_injective m_odd).comp (Mix.xor_injective _)

theorem tailWord_injective {data data' : List uchar} (hlength : data.length = data'.length)
    (hdata : data.length < 4) (h : tailWord data = tailWord data') : data = data' := by
  match data, data' with
  | [], [] => rfl
  | [_], [_] =>
    obtain ⟨rfl, -⟩ := load_injective h
    rfl
  | [_, _], [_, _] =>
    obtain ⟨rfl, rfl, -⟩ := load_injective h
    rfl
  | [_, _, _], [_, _, _] =>
    obtain ⟨rfl, rfl, rfl, -⟩ := load_injective h
    rfl
  | _ :: _ :: _ :: _ :: _, _ =>
    simp only [List.length_cons] at hdata
    omega
  | [], _ :: _ | [_], [] | [_], _ :: _ :: _ | [_, _], [] | [_, _], [_] | [_, _], _ :: _ :: _ :: _
  | [_, _, _], [] | [_, _, _], [_] | [_, _, _], [_, _] | [_, _, _], _ :: _ :: _ :: _ :: _ =>
    simp at hlength

theorem murmurTail_input {data data' : List uchar} (hlength : data.length = data'.length)
    (hdata : data.length < 4) (h' : murmurTail h data = murmurTail h data') : data = data' := by
  by_cases hne : data = []
  · subst hne
    exact (List.length_eq_zero_iff.mp hlength.symm).symm
  · have hne' : data' ≠ [] := by
      rintro rfl
      exact hne (List.length_eq_zero_iff.mp hlength)
    rw [murmurTail_eq hne hdata, murmurTail_eq hne' (hlength ▸ hdata)] at h'
    exact tailWord_injective hlength hdata (Mix.xor_injective' _ (Mix.mul_injective m_odd h'))

/-! ## Keys that differ in one block -/

/-- Two keys of one length that differ only in one block, or only in the bytes after the last one, never have the
same hash. -/
theorem murmurhash2_one_block (hbefore : 4 ∣ before.length) (hlength : block.length = block'.length)
    (hblock : block.length = 4 ∨ block.length < 4 ∧ after = []) :
    murmurhash2 (before ++ block ++ after) seed = murmurhash2 (before ++ block' ++ after) seed ↔ block = block' := by
  constructor
  · intro heq
    obtain ⟨blocks, rfl⟩ := exists_text hbefore
    have hsame : (text blocks ++ block' ++ after).length = (text blocks ++ block ++ after).length := by
      rw [List.length_append, List.length_append, List.length_append, List.length_append, hlength]
    rw [murmurhash2_eq, murmurhash2_eq, hsame] at heq
    have heq := final_injective heq
    rcases hblock with hfour | ⟨hshort, rfl⟩
    · obtain ⟨b, rfl⟩ := exists_bytes hfour
      obtain ⟨b', rfl⟩ := exists_bytes (hlength ▸ hfour)
      obtain ⟨blocks', rest, rfl, hrest⟩ := exists_blocks after
      rw [text_around, text_around, murmurLoop_text, murmurLoop_text, murmurLoop_short hrest,
        murmurLoop_short hrest] at heq
      exact congrArg bytes (mix_mixing.foldl_one_place.mp (murmurTail_state hrest heq))
    · rw [List.append_nil, List.append_nil, murmurLoop_text, murmurLoop_text, murmurLoop_short hshort,
        murmurLoop_short (hlength ▸ hshort)] at heq
      exact murmurTail_input hlength hshort heq
  · rintro rfl
    rfl

theorem murmurhash2_one_block_sample :
    murmurhash2 [97, 98, 99, 100, 101] 0xbc9f1d34 ≠ murmurhash2 [97, 98, 99, 113, 101] 0xbc9f1d34 :=
  mt (@murmurhash2_one_block [] [101] [97, 98, 99, 100] [97, 98, 99, 113] _ (by decide) rfl (.inl rfl)).mp
    (by decide)

end Akio.Bloomfilter
