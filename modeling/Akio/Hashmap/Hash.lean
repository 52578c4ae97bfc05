import Akio.Hashmap.Model
import Akio.Lib.Mix

/-!
# What `_string_hash` keeps apart

The first character is taken in twice, once to start with.
-/

namespace Akio.Hashmap

open Function

variable {before after : List (BitVec 8)} {a b c : BitVec 8}

/-- One turn of the loop. -/
def hashStep (x : ulong) (c : BitVec 8) : ulong := 1000003#64 * x ^^^ c.signExtend 64

/-- The state after the first character. -/
def hashFirst (c : BitVec 8) : ulong := hashStep (c.signExtend 64 <<< 7) c

theorem string_hash_eq {str : CString} (hstr : str.chars = c :: after) :
    string_hash str = after.foldl hashStep (hashFirst c) ^^^ BitVec.ofNat 64 str.chars.length := by
  unfold string_hash
  rw [hstr]
  rfl

theorem signExtend_injective : Injective fun c : BitVec 8 => c.signExtend 64 := by
  intro a b h
  have hback : ∀ c : BitVec 8, (c.signExtend 64).setWidth 8 = c := by decide +kernel
  rw [← hback a, ← hback b]
  exact congrArg (BitVec.setWidth 8) h

theorem hashStep_mixing : Mix.Mixing hashStep where
  state := fun c => by
    simp only [hashStep, BitVec.mul_comm 1000003#64]
    exact (Mix.xor_injective _).comp (Mix.mul_injective (by decide))
  input := fun x => (Mix.xor_injective' _).comp signExtend_injective

theorem hashFirst_injective : Injective hashFirst := by
  intro a b h
  have hback : ∀ c, ((hashFirst c).setWidth 8 ^^^ (hashFirst c).setWidth 8 <<< 7) = c := by decide +kernel
  rw [← hback a, ← hback b, h]

/-- Two keys of one length that differ in one character never have the same hash. -/
theorem string_hash_one_char {key key' : CString} (hkey : key.chars = before ++ a :: after)
    (hkey' : key'.chars = before ++ b :: after) : string_hash key = string_hash key' ↔ key = key' := by
  constructor
  · intro heq
    have hlength : key'.chars.length = key.chars.length := by
      rw [hkey, hkey', List.length_append, List.length_append, List.length_cons, List.length_cons]
    have hab : a = b := by
      rcases before with _ | ⟨c, before⟩
      · rw [string_hash_eq hkey, string_hash_eq hkey', hlength] at heq
        exact hashFirst_injective (hashStep_mixing.foldl_injective after (Mix.xor_injective _ heq))
      · rw [string_hash_eq hkey, string_hash_eq hkey', hlength] at heq
        exact hashStep_mixing.foldl_one_place.mp (Mix.xor_injective _ heq)
    obtain ⟨chars, hchars⟩ := key
    obtain ⟨chars', hchars'⟩ := key'
    obtain rfl : chars = chars' := hkey.trans (hab ▸ hkey'.symm)
    rfl
  · rintro rfl
    rfl

theorem string_hash_one_char_sample :
    string_hash ⟨[107, 101, 121], by decide⟩ ≠ string_hash ⟨[107, 97, 121], by decide⟩ :=
  mt (@string_hash_one_char [107] [121] 101 97 ⟨[107, 101, 121], _⟩ ⟨[107, 97, 121], _⟩ rfl rfl).mp (by decide)

end Akio.Hashmap
