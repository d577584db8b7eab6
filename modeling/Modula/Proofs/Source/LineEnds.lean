import Mathlib.Data.Nat.Notation
import Modula.Source.LineEnds

/-!
# Texts with their line ends normalized

A text whose line ends are normalized has no carriage returns, a text without any stays as it is, and no text gets longer
(`LineEnds.byteSize_normalize_le`). Two texts can be normalized apart from each other, unless a pair of characters that
ends a line is parted (`LineEnds.normalize_append`).
-/

set_option autoImplicit false

namespace Modula

/-! ## Bytes -/

/-- The number of bytes that a text takes. -/
def byteSize (text : List Char) : ℕ := (String.ofList text).utf8ByteSize

/-- No characters take no bytes. -/
@[simp] theorem byteSize_nil : byteSize [] = 0 := rfl

/-- Bytes add up. -/
@[simp] theorem byteSize_append (a b : List Char) : byteSize (a ++ b) = byteSize a + byteSize b := by
  rw [byteSize, String.ofList_append, String.utf8ByteSize_append]
  rfl

/-- A character takes one to four bytes. -/
@[simp] theorem byteSize_singleton (c : Char) : byteSize [c] = c.utf8Size := by simp [byteSize]

/-- Each character adds its bytes. -/
@[simp] theorem byteSize_cons (c : Char) (text : List Char) : byteSize (c :: text) = c.utf8Size + byteSize text := by
  rw [← List.singleton_append, byteSize_append, byteSize_singleton]

/-- Turned around, a text takes as many bytes. -/
theorem byteSize_reverse (text : List Char) : byteSize text.reverse = byteSize text := by
  induction text with
  | nil => rfl
  | cons c text ih =>
    rw [List.reverse_cons, byteSize_append, byteSize_singleton, byteSize_cons, ih, Nat.add_comm]

/-- Every character takes a byte at least. -/
theorem length_le_byteSize (text : List Char) : text.length ≤ byteSize text := by
  induction text with
  | nil => exact Nat.le_refl 0
  | cons c text ih =>
    have hc := c.utf8Size_pos
    rw [byteSize_cons, List.length_cons]
    omega

/-- The end of the first part of a text is the start of a character of it, or the end. -/
theorem isValid_byteSize (a b : List Char) :
    (String.Pos.Raw.mk (byteSize a)).IsValid (String.ofList (a ++ b)) := by
  rw [String.Pos.Raw.isValid_iff_exists_append]
  exact ⟨String.ofList a, String.ofList b, String.ofList_append, rfl⟩

namespace LineEnds

/-! ## Carriage returns -/

/-- A text with its line ends normalized has no carriage returns. -/
theorem return_not_mem_normalize (text : List Char) : '\r' ∉ normalize text := by
  rw [normalize, replaceReturns]
  intro hmem
  obtain ⟨c, -, hc⟩ := List.mem_map.mp hmem
  by_cases hreturn : c = '\r'
  · simp [hreturn] at hc
  · simp [hreturn] at hc

/-- Without carriage returns nothing is joined. -/
theorem joinPairsFrom_of_no_return (done : List Char) {text : List Char} (h : '\r' ∉ text) :
    joinPairsFrom done text = done.reverse ++ text := by
  induction text generalizing done with
  | nil => simp [joinPairsFrom]
  | cons c text ih =>
    obtain ⟨hc, htext⟩ := not_or.mp (mt List.mem_cons.mpr h)
    have hother : ∀ rest, c = '\r' → text = '\n' :: rest → False := fun _ hreturn _ => hc hreturn.symm
    rw [joinPairsFrom.eq_2 _ _ _ hother, ih _ htext]
    simp

/-- A text without carriage returns stays as it is. -/
theorem normalize_of_no_return {text : List Char} (h : '\r' ∉ text) : normalize text = text := by
  have hreplace : text.map (fun c => if c = '\r' then '\n' else c) = text := by
    refine (List.map_congr_left fun c hc => ?_).trans (List.map_id text)
    have hother : c ≠ '\r' := fun hreturn => h (hreturn ▸ hc)
    simp [hother]
  rw [normalize, joinPairs, joinPairsFrom_of_no_return _ h, List.reverse_nil, List.nil_append, replaceReturns, hreplace]

/-! ## Parts of a text -/

/-- Pairs are joined in two parts of a text one by one, if they do not meet in a pair. -/
theorem joinPairsFrom_append (done text more : List Char) (h : text.getLast? = some '\r' → more.head? ≠ some '\n') :
    joinPairsFrom done (text ++ more) = joinPairsFrom (joinPairsFrom done text).reverse more := by
  fun_induction joinPairsFrom done text with
  | case1 done rest ih =>
    rw [List.cons_append, List.cons_append, joinPairsFrom]
    exact ih fun hlast => h (by simp [List.getLast?_cons, hlast])
  | case2 done c rest hpair ih =>
    rw [List.cons_append, joinPairsFrom.eq_2, ih fun hlast => h (by simp [List.getLast?_cons, hlast])]
    -- a carriage return at the end could be joined to a line feed that comes after it
    rintro tail rfl htail
    cases rest with
    | nil => exact h rfl (by rw [← List.nil_append more, htail]; rfl)
    | cons d rest =>
      obtain ⟨rfl, -⟩ := List.cons.inj htail
      exact hpair rest rfl rfl
  | case3 done => simp

/-- What has been joined stays. -/
theorem joinPairsFrom_before (done before text : List Char) :
    joinPairsFrom (done ++ before) text = before.reverse ++ joinPairsFrom done text := by
  fun_induction joinPairsFrom done text with
  | case1 done rest ih => rw [joinPairsFrom, ← List.cons_append, ih]
  | case2 done c rest hpair ih => rw [joinPairsFrom.eq_2 _ _ _ hpair, ← List.cons_append, ih]
  | case3 done => simp [joinPairsFrom]

/-- Line ends are normalized on both sides of a point that does not part a pair. -/
theorem normalize_append {text more : List Char} (h : text.getLast? = some '\r' → more.head? ≠ some '\n') :
    normalize (text ++ more) = normalize text ++ normalize more := by
  have hsplit := joinPairsFrom_before [] (joinPairsFrom [] text).reverse more
  rw [List.nil_append, List.reverse_reverse] at hsplit
  simp [normalize, replaceReturns, joinPairs, joinPairsFrom_append _ _ _ h, hsplit]

/-- Line ends are normalized on both sides of a character that belongs to none. -/
theorem normalize_middle (text more : List Char) {c : Char} (hreturn : c ≠ '\r') (hline : c ≠ '\n') :
    normalize (text ++ c :: more) = normalize text ++ c :: normalize more := by
  have hrest : normalize ([c] ++ more) = normalize [c] ++ normalize more := normalize_append (by simp [hreturn])
  have hself : normalize [c] = [c] := normalize_of_no_return (by simpa using hreturn.symm)
  rw [normalize_append (by simp [hline]), ← List.singleton_append, hrest, hself]
  rfl

/-- A text that ends with a line feed does so when its line ends are normalized. -/
theorem getLast?_normalize {text : List Char} (h : text.getLast? = some '\n') :
    (normalize text).getLast? = some '\n' := by
  have hjoined : ∀ done, (joinPairsFrom done text).getLast? = some '\n' := by
    intro done
    fun_induction joinPairsFrom done text with
    | case1 done rest ih =>
      cases rest with
      | nil => simp [joinPairsFrom]
      | cons c rest => exact ih (by simpa using h)
    | case2 done c rest hpair ih =>
      cases rest with
      | nil => simpa [joinPairsFrom] using h
      | cons d rest => exact ih (by simpa using h)
    | case3 done => cases h
  simp [normalize, replaceReturns, joinPairs, hjoined]

/-! ## Length -/

/-- Carriage returns and line feeds take one byte each. -/
theorem byteSize_replaceReturns (cs : List Char) : byteSize (replaceReturns cs) = byteSize cs := by
  induction cs with
  | nil => rfl
  | cons c cs ih =>
    have hc : (if c = '\r' then '\n' else c).utf8Size = c.utf8Size := by
      split
      · next hreturn =>
        rw [hreturn]
        decide
      · rfl
    have hcons : replaceReturns (c :: cs) = (if c = '\r' then '\n' else c) :: replaceReturns cs := rfl
    rw [hcons, byteSize_cons, byteSize_cons, hc, ih]

/-- What has been done and what is left are joined to no more bytes than they have. -/
theorem byteSize_joinPairsFrom_le (done cs : List Char) :
    byteSize (joinPairsFrom done cs) ≤ byteSize done + byteSize cs := by
  fun_induction joinPairsFrom done cs with
  | case1 done rest ih | case2 done c rest hpair ih =>
    simp only [byteSize_cons] at ih ⊢
    omega
  | case3 done =>
    rw [byteSize_reverse]
    omega

/-- To normalize line ends makes no text longer. -/
theorem byteSize_normalize_le (text : List Char) : byteSize (normalize text) ≤ byteSize text := by
  rw [normalize, byteSize_replaceReturns, joinPairs]
  simpa using byteSize_joinPairsFrom_le [] text

end LineEnds

end Modula
