import Mathlib.Algebra.Order.Floor.Div
import LocalPlay.Proofs.Packet.Sealed

/-! The chunks of a message are as few as can be: all are full but the last, which is not empty. -/
namespace LocalPlay.ChunkSize
variable {size count : Nat} {data message : Bytes}

theorem count_eq_ceilDiv (c : ChunkSize) (length : Nat) : c.count length = length ⌈/⌉ c.bytes :=
  (Nat.ceilDiv_eq_add_pred_div ..).symm

/-- One chunk less does not hold the message. -/
theorem pred_count_mul_lt (c : ChunkSize) {length : Nat} (h : 0 < length) :
    (c.count length - 1) * c.bytes < length := by
  have hm := Nat.div_mul_le_self (length + c.bytes - 1) c.bytes
  have hp := c.pos
  rw [Nat.sub_mul, count]
  omega

/-- Data that takes so many pieces and one more is cut into full pieces and a last one. -/
theorem pieces_succ_eq_concat (hlow : count * size < data.length) (hhigh : data.length ≤ (count + 1) * size) :
    ∃ full last, pieces size (count + 1) data = full ++ [last] ∧ (∀ piece ∈ full, piece.length = size) ∧
      0 < last.length ∧ last.length ≤ size := by
  induction count generalizing data with
  | zero =>
    rw [Nat.zero_mul] at hlow
    rw [Nat.zero_add, Nat.one_mul] at hhigh
    exact ⟨[], data, by simp [pieces, List.take_of_length_le hhigh], by simp, hlow, hhigh⟩
  | succ count ih =>
    -- what lies behind the first piece keeps the bounds for one piece less
    rw [Nat.succ_mul] at hlow hhigh
    have hlow' : count * size < (data.drop size).length := by
      rw [List.length_drop]
      omega
    have hhigh' : (data.drop size).length ≤ (count + 1) * size := by
      rw [List.length_drop]
      omega
    obtain ⟨full, last, hp, hf, hl⟩ := ih hlow' hhigh'
    refine ⟨data.take size :: full, last, by rw [pieces, hp, List.cons_append], ?_, hl⟩
    exact List.forall_mem_cons.mpr ⟨List.length_take_of_le (by omega), hf⟩

/-- The chunks of a message that is not empty are full chunks and a last one, which is not empty either. -/
theorem chunks_eq_concat (c : ChunkSize) (h : message ≠ []) :
    ∃ full last, c.chunks message = full ++ [last] ∧ (∀ chunk ∈ full, chunk.length = c.bytes) ∧
      0 < last.length ∧ last.length ≤ c.bytes := by
  have hlow := c.pred_count_mul_lt (List.length_pos_of_ne_nil h)
  have hhigh := c.length_le_count_mul message.length
  have hpos : 0 < c.count message.length := by
    apply Nat.pos_of_ne_zero
    intro h0
    rw [h0, Nat.zero_mul] at hhigh
    exact h (List.eq_nil_of_length_eq_zero (by omega))
  rw [chunks]
  obtain ⟨count, hc⟩ := Nat.exists_eq_succ_of_ne_zero (Nat.ne_of_gt hpos)
  rw [hc] at hlow hhigh ⊢
  exact pieces_succ_eq_concat hlow hhigh

end LocalPlay.ChunkSize
