import Mathlib.Data.List.Range
import Mathlib.Data.Nat.ModEq

/-!
# Ring buffers

A queue in a list of fixed length: its entries lie from the head on, around the end of the list. An entry
is pushed at the place after the last and popped at the head.
-/

namespace RingBuffer

variable {α : Type*} [Inhabited α] {buffer : List α} {head n : ℕ}

/-- The `count` entries from `head` on. -/
def window (buffer : List α) (head count : ℕ) : List α :=
  (List.range count).map fun i => buffer.getD ((head + i) % buffer.length) default

@[simp] lemma length_window (buffer : List α) (head count : ℕ) :
    (window buffer head count).length = count := by simp [window]

lemma window_mod (buffer : List α) (head count : ℕ) :
    window buffer (head % buffer.length) count = window buffer head count := by
  simp [window, Nat.mod_add_mod]

/-- The window without its first entry starts one place on. -/
theorem window_succ (buffer : List α) (head count : ℕ) :
    window buffer head (count + 1) =
      buffer.getD (head % buffer.length) default :: window buffer (head + 1) count := by
  rw [window, List.range_succ_eq_map, List.map_cons, List.map_map, Nat.add_zero, window]
  refine congrArg _ (List.map_congr_left fun i _ => ?_)
  rw [Function.comp_apply, Nat.succ_eq_add_one, show head + (i + 1) = head + 1 + i by omega]

lemma window_concat (buffer : List α) (head count : ℕ) :
    window buffer head (count + 1) =
      window buffer head count ++ [buffer.getD ((head + count) % buffer.length) default] := by
  rw [window, List.range_succ, List.map_append]
  rfl

/-- Within the length of the list the places of the window differ. -/
theorem place_inj {length i j : ℕ} (hi : i < length) (hj : j < length)
    (h : (head + i) % length = (head + j) % length) : i = j :=
  Nat.ModEq.eq_of_lt_of_lt (Nat.ModEq.add_left_cancel' head h) hi hj

/-- A place outside the window may be written. -/
theorem window_set {k : ℕ} (x : α) (hk : ∀ i < n, (head + i) % buffer.length ≠ k) :
    window (buffer.set k x) head n = window buffer head n := by
  rw [window, window, List.length_set]
  refine List.map_congr_left fun i hi => ?_
  have hne := hk i (List.mem_range.1 hi)
  rw [List.getD_eq_getElem?_getD, List.getD_eq_getElem?_getD, List.getElem?_set_ne (Ne.symm hne)]

/-- Writing at the place after the last entry appends one. -/
theorem window_push (x : α) (hn : n < buffer.length) :
    window (buffer.set ((head + n) % buffer.length) x) head (n + 1) = window buffer head n ++ [x] := by
  have hplace : (head + n) % buffer.length < buffer.length := Nat.mod_lt _ (by omega)
  rw [window_concat, window_set x fun i hi h => (Nat.ne_of_lt hi) (place_inj (by omega) hn h),
    List.length_set, List.getD_eq_getElem?_getD, List.getElem?_set_self hplace, Option.getD_some]

/-- Popping reads the first entry; its place may be cleared. -/
theorem window_pop (x : α) (hhead : head < buffer.length) (hn : n < buffer.length) :
    window buffer head (n + 1) =
      buffer.getD head default ::
        window (buffer.set head x) ((head + 1) % buffer.length) n := by
  have hset : window (buffer.set head x) (head + 1) n = window buffer (head + 1) n := by
    refine window_set x fun i hi h => ?_
    have hzero : 0 = i + 1 := by
      refine @place_inj head buffer.length 0 (i + 1) (by omega) (by omega) ?_
      rw [Nat.add_zero, Nat.mod_eq_of_lt hhead, show head + (i + 1) = head + 1 + i by omega, h]
    omega
  have hmod := window_mod (buffer.set head x) (head + 1) n
  rw [List.length_set] at hmod
  rw [window_succ, Nat.mod_eq_of_lt hhead, hmod, hset]

end RingBuffer
