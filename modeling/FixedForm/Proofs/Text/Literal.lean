import FixedForm.Proofs.Text.Scan
import FixedForm.Text.Literal

/-! Changing the code of a text.  The code in front of the first literal is changed like a text of its
own, and literals stay. -/
namespace FixedForm.Text

theorem takeWhile_of_dropWhile {p : Char → Bool} {t : Text} (h : t.dropWhile p = []) :
    t.takeWhile p = t := by
  have ht : t.takeWhile p ++ t.dropWhile p = t := List.takeWhile_append_dropWhile
  rwa [h, List.append_nil] at ht

/-- A text without quotes is code. -/
theorem mapCode_of_free {f : Text → Text} {t : Text} (h : ∀ c ∈ t, isQuote c = false) :
    mapCode f t = f t := by
  have hd : t.dropWhile (!isQuote ·) = [] := by
    have hrun := dropWhile_run (p := (!isQuote ·)) (w := t) (fun c hc => by simp [h c hc]) .nil
    rwa [List.append_nil] at hrun
  rw [mapCode, stretches]
  split
  · simp [Stretch.mapCode, Stretch.text]
  · next he => simp [hd] at he

/-- The code before the first quote is changed on its own. -/
theorem mapCode_eq_append (f : Text → Text) (t : Text) :
    ∃ rest, mapCode f t = f (t.takeWhile (!isQuote ·)) ++ rest ∧
      (t.dropWhile (!isQuote ·) = [] → rest = []) := by
  rw [mapCode, stretches]
  split
  · next hd =>
    exact ⟨[], by simp [Stretch.mapCode, Stretch.text, takeWhile_of_dropWhile hd], fun _ => rfl⟩
  · next q body hd =>
    exact ⟨_, by rw [List.map_cons, List.flatMap_cons]; rfl, fun h => by rw [hd] at h; cases h⟩

/-- Quotes stay. -/
theorem exists_quote_mapCode (f : Text → Text) {t : Text} (h : ∃ c ∈ t, isQuote c = true) :
    ∃ c ∈ mapCode f t, isQuote c = true := by
  rw [mapCode, stretches]
  split
  · next hd =>
    obtain ⟨c, hc, hq⟩ := h
    rw [← takeWhile_of_dropWhile hd] at hc
    have hfree := List.all_eq_true.1 List.all_takeWhile c hc
    simp [hq] at hfree
  · next q body hd =>
    have hq : isQuote q = true := by
      have := List.head?_dropWhile_not (!isQuote ·) t
      simpa [hd] using this
    refine ⟨q, ?_, hq⟩
    rw [List.map_cons, List.flatMap_cons]
    refine List.mem_append_right _ ?_
    split <;> simp [Stretch.mapCode, Stretch.text]

end FixedForm.Text
