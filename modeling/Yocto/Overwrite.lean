-- Bytes that are written into a file at a position: what the file holds
-- afterwards, and writes that follow each other.
import Mathlib.Tactic

namespace yocto.overwrite

variable {α : Type} (zero : α)

/-- Writing a chunk at a position of a file. A gap before it is filled up, and nothing is done without
anything to write. -/
def write (file : List α) (pos : Nat) (chunk : List α) : List α :=
  if chunk = [] then file
  else (file ++ List.replicate (pos - file.length) zero).take pos ++ chunk ++ file.drop (pos + chunk.length)

@[simp] theorem write_nil (file : List α) (pos : Nat) : write zero file pos [] = file := by
  simp [write]

theorem write_write (file : List α) (pos : Nat) (chunk chunk' : List α) :
    write zero (write zero file pos chunk) (pos + chunk.length) chunk' =
      write zero file pos (chunk ++ chunk') := by
  by_cases hchunk : chunk = []
  · simp [hchunk]
  by_cases hchunk' : chunk' = []
  · simp [hchunk']
  have hlen : ((file ++ List.replicate (pos - file.length) zero).take pos).length = pos := by
    simp only [List.length_take, List.length_append, List.length_replicate]
    omega
  have happend : chunk ++ chunk' ≠ [] := by simp [hchunk]
  unfold write
  rw [if_neg hchunk, if_neg hchunk', if_neg happend]
  generalize (file ++ List.replicate (pos - file.length) zero).take pos = start at hlen
  have htake : (start ++ chunk ++ file.drop (pos + chunk.length) ++ List.replicate (pos + chunk.length -
      (start ++ chunk ++ file.drop (pos + chunk.length)).length) zero).take (pos + chunk.length) =
        start ++ chunk := by
    rw [List.append_assoc (start ++ chunk)]
    apply List.take_left'
    simp [hlen]
  have hdrop : (start ++ chunk ++ file.drop (pos + chunk.length)).drop (pos + chunk.length +
      chunk'.length) = file.drop (pos + (chunk ++ chunk').length) := by
    rw [List.drop_append, List.drop_eq_nil_of_le (by simp only [List.length_append]; omega),
      List.nil_append, List.drop_drop]
    congr 1
    simp only [List.length_append, hlen]
    omega
  rw [htake, hdrop]
  simp only [List.append_assoc]

variable {zero} {file chunk : List α} {pos : Nat}

theorem write_getElem? (h : pos + chunk.length ≤ file.length) (i : Nat) :
    (write zero file pos chunk)[i]? =
      if pos ≤ i ∧ i < pos + chunk.length then chunk[i - pos]? else file[i]? := by
  unfold write
  split
  · rename_i hnil
    rw [hnil, if_neg (by simp only [List.length_nil]; omega)]
  · have hlen : (file ++ List.replicate (pos - file.length) zero).take pos = file.take pos := by
      rw [Nat.sub_eq_zero_of_le (by omega), List.replicate_zero, List.append_nil]
    have hpos : (file.take pos).length = pos := by
      rw [List.length_take]
      omega
    rw [hlen, List.append_assoc]
    by_cases hlow : i < pos
    · rw [if_neg (by omega), List.getElem?_append_left (by omega), List.getElem?_take_of_lt hlow]
    · rw [List.getElem?_append_right (by omega), hpos]
      by_cases hhigh : i < pos + chunk.length
      · rw [if_pos ⟨by omega, hhigh⟩, List.getElem?_append_left (by omega)]
      · rw [if_neg (by omega), List.getElem?_append_right (by omega), List.getElem?_drop]
        congr 1
        omega

theorem length_write (h : pos + chunk.length ≤ file.length) :
    (write zero file pos chunk).length = file.length := by
  unfold write
  split
  · rfl
  · simp only [List.length_append, List.length_take, List.length_replicate, List.length_drop]
    omega

theorem read_append (file : List α) (pos size more : Nat) :
    (file.drop pos).take size ++ (file.drop (pos + ((file.drop pos).take size).length)).take more =
      (file.drop pos).take (size + more) := by
  rw [← List.drop_drop, List.take_add]
  congr 2
  rw [List.length_take]
  rcases Nat.le_total size (file.drop pos).length with hle | hle
  · rw [Nat.min_eq_left hle]
  · rw [Nat.min_eq_right hle, List.drop_length, List.drop_eq_nil_of_le hle]

end yocto.overwrite
