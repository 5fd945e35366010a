-- Dicts into which new keys come: a key that was not there is the last one, until the next new
-- key.
import Yocto.OrderedDict

namespace yocto.ordered_dict.OrderedDict

variable {K V : Type} [DecidableEq K] {d : OrderedDict K V} {key : K}

theorem set_fresh (h : key ∉ d.map Prod.fst) (value : V) : d.set key value = d ++ [(key, value)] :=
  if_neg h

theorem get?_fresh (h : key ∉ d.map Prod.fst) : d.get? key = none := by
  unfold get?
  rw [Option.map_eq_none_iff, List.find?_eq_none]
  intro x hx heq
  exact h (List.mem_map.mpr ⟨x, hx, by simpa using heq⟩)

theorem get?_last (h : key ∉ d.map Prod.fst) (value : V) :
    OrderedDict.get? (d ++ [(key, value)]) key = some value := by
  rw [← set_fresh h value]
  exact get?_set_self d key value

theorem set_last (h : key ∉ d.map Prod.fst) (old value : V) :
    OrderedDict.set (d ++ [(key, old)]) key value = d ++ [(key, value)] := by
  unfold set
  rw [if_pos (by simp), List.map_append]
  have hkeep : (d.map fun x => if x.1 = key then (key, value) else x) = d := by
    conv_rhs => rw [← List.map_id' d]
    apply List.map_congr_left
    intro x hx
    apply if_neg
    intro heq
    exact h (List.mem_map.mpr ⟨x, hx, heq⟩)
  simp [hkeep]

def fill (d items : OrderedDict K V) : OrderedDict K V := items.foldl (fun d x => d.set x.1 x.2) d

theorem fill_fresh {items : OrderedDict K V} (h : ((d ++ items).map Prod.fst).Nodup) : fill d items = d ++ items := by
  unfold fill
  induction items generalizing d with
  | nil => simp
  | cons x items ih =>
    have hfresh : x.1 ∉ d.map Prod.fst := by
      rw [List.map_append, List.nodup_append] at h
      intro hmem
      exact h.2.2 _ hmem _ (List.mem_map.mpr ⟨x, List.mem_cons_self, rfl⟩) rfl
    rw [List.foldl_cons, set_fresh hfresh, ih (by simpa using h)]
    simp

end yocto.ordered_dict.OrderedDict
