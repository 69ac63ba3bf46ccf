import Restyle.Text.Ascii

/-!
# Letters in lower case

Only ASCII letters change in lower case, so what holds of every character in lower case is found by
going through the first 128 characters.
-/

namespace Restyle.Text

theorem toList_lower (s : String) : (lower s).toList = s.toList.map Char.toLower :=
  String.toList_ofList

theorem toLower_of_le_toNat {c : Char} (h : 128 ≤ c.toNat) : c.toLower = c := by
  unfold Char.toLower
  rw [dif_neg]
  rintro ⟨-, hle⟩
  have : c.toNat ≤ 90 := hle
  omega

theorem forall_char {p : Char → Prop} (hlow : ∀ n < 128, p (Char.ofNat n))
    (hhigh : ∀ c : Char, 128 ≤ c.toNat → p c) (c : Char) : p c := by
  by_cases h : c.toNat < 128
  · have := hlow c.toNat h
    rwa [Char.ofNat_toNat] at this
  · exact hhigh c (by omega)

theorem isAlpha_toLower (c : Char) : c.toLower.isAlpha = c.isAlpha := by
  refine forall_char (p := fun c => c.toLower.isAlpha = c.isAlpha) (by decide) (fun c hc => ?_) c
  rw [toLower_of_le_toNat hc]

theorem toLower_eq_slash_iff (c : Char) : c.toLower = '/' ↔ c = '/' := by
  refine forall_char (p := fun c => c.toLower = '/' ↔ c = '/') (by decide) (fun c hc => ?_) c
  rw [toLower_of_le_toNat hc]

end Restyle.Text
