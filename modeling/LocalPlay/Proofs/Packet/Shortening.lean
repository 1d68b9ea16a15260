import LocalPlay.Proofs.Packet.Reports
import LocalPlay.Proofs.Text.Boundary

/-! What is left of a text that is too long for an error report. -/
namespace LocalPlay

namespace Utf8.LongestWithin
variable {limit : Nat} {message text : String}

theorem eq_iff_fits (h : LongestWithin limit message text) : text = message ↔ (bytes message).length ≤ limit := by
  constructor
  · rintro rfl
    exact h.length_le
  · exact h.eq_of_fits

/-- What is cut off begins with a character that no longer fits, and a character has at most four bytes. -/
theorem limit_le (h : LongestWithin limit message text) (hm : limit < (bytes message).length) :
    limit ≤ (bytes text).length + 3 := by
  obtain ⟨rest, hr⟩ := h.initial
  cases rest with
  | nil =>
    rw [List.append_nil, String.toList_inj] at hr
    exact absurd (h.eq_iff_fits.mp hr) (Nat.not_le.mpr hm)
  | cons c rest =>
    have hnext : text.toList ++ [c] <+: message.toList := ⟨rest, by rw [← hr, ← List.append_cons]⟩
    have hlong : limit < (encode (text.toList ++ [c])).length := by
      apply Nat.lt_of_not_le
      intro hfits
      have hp := h.longest (String.ofList (text.toList ++ [c])) (by rwa [String.toList_ofList])
        (by rwa [bytes, String.toList_ofList])
      have hl := hp.length_le
      rw [String.toList_ofList, List.length_append, List.length_singleton] at hl
      omega
    calc
      limit ≤ (encode (text.toList ++ [c])).length - 1 := Nat.le_sub_one_of_lt hlong
      _ = (bytes text).length + c.utf8Size - 1 := by
        rw [encode_append, List.length_append, length_encode_cons]
        rfl
      _ ≤ (bytes text).length + 3 := by
        have := c.utf8Size_le_four
        omega

/-- Going back from the limit to a boundary gives the longest beginning that fits. -/
theorem cutBack?_eq (h : LongestWithin limit message text) : cutBack? limit (bytes message) = some (bytes text) := by
  rw [cutBack?]
  split
  · rename_i hm
    rw [h.eq_of_fits hm]
  · obtain ⟨last, hle, hs, hlast, hmax⟩ := exists_boundaryUpTo? (bytes message) limit
    obtain ⟨start, hp, rfl⟩ := isBoundary_encode_iff.mp hlast
    have htext : (bytes text).length ≤ (encode start).length :=
      hmax _ h.length_le (isBoundary_encode_iff.mpr ⟨_, h.initial, rfl⟩)
    have hstart : start <+: text.toList := by
      have := h.longest (String.ofList start) (by rwa [String.toList_ofList])
        (by rwa [bytes, String.toList_ofList])
      rwa [String.toList_ofList] at this
    have he : encode start = bytes text := (encode_isPrefix hstart).eq_of_length_le htext
    rw [hs, Option.map_some, he, Option.some_inj]
    exact (List.prefix_iff_eq_take.mp (encode_isPrefix h.initial)).symm

/-- The fourth byte is the first one of the last character. -/
example : cutBack? 4 (bytes "aéé") = some (bytes "aé") := by decide +kernel

end Utf8.LongestWithin

namespace ErrorReport

/-- A text is cut to its longest beginning that fits into an error report, and ends between two characters; the search
for that place, back from the limit, always ends at one. A text that fits stays whole, and at most three bytes are given
away of any other one. What is left is well-formed, is not cut any more, and fits into a packet with each code. -/
theorem shorten_exact (message : String) :
    let cut := shorten message
    Utf8.cutBack? maxErrorMessageLength (Utf8.bytes message) = some (Utf8.bytes cut) ∧
      Utf8.LongestWithin maxErrorMessageLength message cut ∧
      (cut = message ↔ (Utf8.bytes message).length ≤ maxErrorMessageLength) ∧
      (cut ≠ message → maxErrorMessageLength - 3 ≤ (Utf8.bytes cut).length ∧
        (Utf8.bytes cut).length ≤ maxErrorMessageLength) ∧
      Utf8.WellFormed (Utf8.bytes cut) ∧ shorten cut = cut ∧
      ∀ (route : Route) (code : ErrorCode) (stamp : UInt64), ∃ p, toPacket route code cut stamp = .ok p := by
  intro cut
  have h : Utf8.LongestWithin maxErrorMessageLength message cut := longestWithin_shorten message
  have hagain : Utf8.LongestWithin maxErrorMessageLength cut (shorten cut) := longestWithin_shorten cut
  refine ⟨h.cutBack?_eq, h, h.eq_iff_fits, ?_, Utf8.wellFormed_encode _, hagain.eq_of_fits h.length_le, ?_⟩
  · intro hne
    have hm : maxErrorMessageLength < (Utf8.bytes message).length := by
      apply Nat.lt_of_not_le
      intro hfits
      exact hne (h.eq_of_fits hfits)
    exact ⟨Nat.sub_le_of_le_add (h.limit_le hm), h.length_le⟩
  · intro route code stamp
    exact ⟨_, toPacket_eq_ok (length_payload_shorten_le code message) route stamp⟩

end ErrorReport
end LocalPlay
