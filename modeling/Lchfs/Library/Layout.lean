import Mathlib

/-!
# Pieces laid out in a buffer

A buffer is filled by copying pieces to their own positions, in order; what no piece covers
keeps the filler it started with. Consecutive pieces give back what was cut into them, and a
piece of nothing but filler may be left out. A range of the buffer can be filled by itself.
-/

namespace Lchfs.Library.Layout

open List

variable {α : Type*}
variable {a b buf c xs : List α} {start stop : Nat} {pieces : List (Nat × List α)} {i : Nat} {z : α}

/-- Copies into a buffer, cut off at its end. -/
def copyInto (buf : List α) (start : Nat) (xs : List α) : List α :=
  let stop := min (start + xs.length) buf.length
  if start < stop then buf.take start ++ xs.take (stop - start) ++ buf.drop stop else buf

/-- Copies each piece to its position. -/
def place (pieces : List (Nat × List α)) (buf : List α) : List α :=
  pieces.foldl (fun buf piece ↦ copyInto buf piece.1 piece.2) buf

/-- The positions of consecutive pieces. -/
def offsets : Nat → List (List α) → List (Nat × List α)
  | _, [] => []
  | start, piece :: pieces => (start, piece) :: offsets (start + piece.length) pieces

/-- Every piece ends by `stop`. -/
def Within (stop : Nat) (pieces : List (Nat × List α)) : Prop :=
  ∀ piece ∈ pieces, piece.1 + piece.2.length ≤ stop

/-! ## Copies -/

theorem getElem?_copyInto : (copyInto buf start xs)[i]? =
      if start ≤ i ∧ i < start + xs.length ∧ i < buf.length then xs[i - start]? else buf[i]? := by
  simp only [copyInto]
  split_ifs with hlt hin hin
  · rw [getElem?_append_left (by simp; omega), getElem?_append_right (by simp; omega),
      length_take_of_le (by omega), getElem?_take_of_lt (by omega)]
  · by_cases hi : i < start
    · rw [getElem?_append_left (by simp; omega), getElem?_append_left (by simp; omega),
        getElem?_take_of_lt hi]
    · rw [getElem?_append_right (by simp; omega), getElem?_drop]
      congr 1
      simp only [length_append, length_take]
      omega
  · omega
  · rfl

@[simp] theorem length_copyInto : (copyInto buf start xs).length = buf.length := by
  simp only [copyInto]
  split_ifs
  · simp only [length_append, length_take, length_drop]
    omega
  · rfl

@[simp] theorem copyInto_nil : copyInto buf start [] = buf := by
  have hstop : ¬start < min (start + ([] : List α).length) buf.length := by
    rw [length_nil]
    omega
  simp only [copyInto, if_neg hstop]

/-- A copy that ends by `a`'s end leaves what follows `a`. -/
theorem copyInto_append (h : start + xs.length ≤ a.length) :
    copyInto (a ++ b) start xs = copyInto a start xs ++ b := by
  apply ext_getElem?
  intro i
  rw [getElem?_copyInto]
  by_cases hi : i < a.length
  · have hcopy : (copyInto a start xs ++ b)[i]? = (copyInto a start xs)[i]? :=
      getElem?_append_left (by simpa using hi)
    rw [hcopy, getElem?_copyInto, getElem?_append_left hi, length_append]
    congr 1
    simp only [eq_iff_iff]
    omega
  · have hcopy : (copyInto a start xs ++ b)[i]? = b[i - a.length]? := by
      rw [getElem?_append_right (by simpa using hi), length_copyInto]
    rw [hcopy, if_neg (by omega), getElem?_append_right (by omega)]

/-- A copy over a part of its own length. -/
theorem copyInto_middle (xs : List α) (h : b.length = xs.length) :
    copyInto (a ++ b ++ c) a.length xs = a ++ xs ++ c := by
  apply ext_getElem?
  intro i
  rw [getElem?_copyInto]
  simp only [getElem?_append, length_append, h]
  split_ifs <;> first | rfl | omega

/-! ## Placed pieces -/

@[simp] theorem place_nil : place [] buf = buf := rfl

theorem place_cons {piece : Nat × List α} :
    place (piece :: pieces) buf = place pieces (copyInto buf piece.1 piece.2) := rfl

theorem place_append {first second : List (Nat × List α)} :
    place (first ++ second) buf = place second (place first buf) :=
  foldl_append

@[simp] theorem length_place : (place pieces buf).length = buf.length := by
  induction pieces generalizing buf with
  | nil => rfl
  | cons _ _ ih => rw [place_cons, ih, length_copyInto]

theorem place_append_buf (h : Within a.length pieces) : place pieces (a ++ b) = place pieces a ++ b := by
  induction pieces generalizing a with
  | nil => rfl
  | cons piece _ ih =>
    rw [place_cons, copyInto_append (h piece mem_cons_self), place_cons]
    apply ih
    rw [length_copyInto]
    exact fun piece hmem ↦ h piece (mem_cons_of_mem _ hmem)

theorem within_offsets (start : Nat) (xss : List (List α)) : Within (start + xss.flatten.length) (offsets start xss) := by
  induction xss generalizing start with
  | nil => simp [offsets, Within]
  | cons _ _ ih =>
    intro piece hmem
    rw [offsets, mem_cons] at hmem
    rcases hmem with rfl | hmem
    · simp
    · have hle := ih _ piece hmem
      simp only [flatten_cons, length_append]
      omega

/-- Consecutive pieces, some of those that are only filler left out, give back what they were
cut from. -/
theorem place_offsets_filter {p : Nat × List α → Bool} (xss : List (List α))
    (hp : ∀ start, ∀ xs ∈ xss, p (start, xs) = false → xs = List.replicate xs.length z) :
    place ((offsets a.length xss).filter p) (a ++ List.replicate xss.flatten.length z ++ c) =
      a ++ xss.flatten ++ c := by
  induction xss generalizing a with
  | nil => simp [offsets]
  | cons xs xss ih =>
    have hih := ih (a := a ++ xs) fun start xs' hmem ↦ hp start xs' (mem_cons_of_mem _ hmem)
    have hsplit : a ++ replicate (xs :: xss).flatten.length z ++ c =
        a ++ replicate xs.length z ++ (replicate xss.flatten.length z ++ c) := by
      simp only [flatten_cons, length_append, ← replicate_append_replicate, append_assoc]
    have hgoal : place ((offsets (a.length + xs.length) xss).filter p)
        (a ++ xs ++ (replicate xss.flatten.length z ++ c)) = a ++ (xs :: xss).flatten ++ c := by
      simpa only [length_append, append_assoc, flatten_cons] using hih
    rw [offsets, hsplit]
    cases hkept : p (a.length, xs) with
    | true =>
      rw [filter_cons_of_pos hkept, place_cons, copyInto_middle _ (by simp)]
      exact hgoal
    | false =>
      rw [filter_cons_of_neg (by simp [hkept]), ← hp a.length xs mem_cons_self hkept]
      exact hgoal

theorem place_offsets (xss : List (List α)) :
    place (offsets a.length xss) (a ++ List.replicate xss.flatten.length z ++ c) = a ++ xss.flatten ++ c := by
  have hall : (offsets a.length xss).filter (fun _ ↦ true) = offsets a.length xss := by simp
  rw [← hall]
  apply place_offsets_filter
  simp

/-! ## Ranges -/

/-- The elements from `start` up to `stop`. -/
def range (start stop : Nat) (buf : List α) : List α :=
  (buf.take stop).drop start

theorem getElem?_range :
    (range start stop buf)[i]? = if start + i < stop then buf[start + i]? else none := by
  rw [range, getElem?_drop, getElem?_take]

/-- The part of a piece that falls into a range, copied into the range. -/
theorem range_copyInto {pos : Nat} (hstop : stop ≤ buf.length) : range start stop (copyInto buf pos xs) =
      copyInto (range start stop buf) (max start pos - start)
        (range (max start pos - pos) (min stop (pos + xs.length) - pos) xs) := by
  apply ext_getElem?
  intro i
  have hlength : (range start stop buf).length = stop - start := by
    rw [range, length_drop, length_take_of_le hstop]
  have hpart : (range (max start pos - pos) (min stop (pos + xs.length) - pos) xs).length =
      min stop (pos + xs.length) - pos - (max start pos - pos) := by
    rw [range, length_drop, length_take_of_le (by omega)]
  rw [getElem?_range, getElem?_copyInto, getElem?_copyInto, getElem?_range, getElem?_range, hlength, hpart]
  split_ifs <;> first | omega | rfl | (congr 1; omega)

end Lchfs.Library.Layout
