import Mathlib.Data.String.Basic
import SignOff.Files

/-!
# The names on a path

A path is split at its slashes by going through the bytes of its text. On a text at which that has come to a
character the names found so far and those to come are the parts of the list of its characters.
-/

namespace SignOff

open String

/-- Splitting goes on from the characters after `l`, which have been split, and `m`, which are part of a name. -/
theorem splitOnAux_eq (c : Char) (l m r : List Char) (names : List String) :
    splitOnAux (ofList (l ++ m ++ r)) (ofList [c]) ⟨utf8Len l⟩ ⟨utf8Len l + utf8Len m⟩ 0 names =
      names.reverse ++ (List.splitOnPPrepend (· == c) r m.reverse).map ofList := by
  induction r generalizing l m names with
  | nil =>
    have hend : Pos.Raw.atEnd (ofList (l ++ m ++ [])) ⟨utf8Len l + utf8Len m⟩ = true := by
      simp [-ofList_append]
    rw [splitOnAux, if_pos hend, extract_of_valid l m []]
    simp
  | cons c' r ih =>
    have hget : Pos.Raw.get (ofList (l ++ m ++ c' :: r)) ⟨utf8Len l + utf8Len m⟩ = c' := by
      simpa [-ofList_append] using get_of_valid (l ++ m) (c' :: r)
    have hnext : Pos.Raw.next (ofList (l ++ m ++ c' :: r)) ⟨utf8Len l + utf8Len m⟩ =
        ⟨utf8Len l + utf8Len m + c'.utf8Size⟩ := by
      simpa [-ofList_append] using next_of_valid (l ++ m) c' r
    have hend : ¬Pos.Raw.atEnd (ofList (l ++ m ++ c' :: r)) ⟨utf8Len l + utf8Len m⟩ = true := by
      intro h
      have hnil := (atEnd_of_valid (l ++ m) (c' :: r)).1 (by simpa [-ofList_append] using h)
      contradiction
    have hslash : Pos.Raw.get (ofList [c]) 0 = c := by
      simpa [-ofList_append] using get_of_valid [] [c]
    have hslashNext : Pos.Raw.next (ofList [c]) 0 = ⟨c.utf8Size⟩ := by
      simpa [-ofList_append] using next_of_valid [] c []
    have hslashEnd : Pos.Raw.atEnd (ofList [c]) ⟨c.utf8Size⟩ = true := by
      simpa [-ofList_append] using (atEnd_of_valid [c] []).2 rfl
    rw [splitOnAux, if_neg hend, hget, hslash, hslashNext, hnext]
    simp only [hslashEnd, if_true]
    by_cases hc : c' = c
    · subst hc
      have hsplit := ih (l ++ m ++ [c']) [] (ofList m :: names)
      have hback : Pos.Raw.unoffsetBy ⟨utf8Len l + utf8Len m + c'.utf8Size⟩ ⟨c'.utf8Size⟩ =
          ⟨utf8Len l + utf8Len m⟩ := by
        simp [Pos.Raw.unoffsetBy]
      rw [if_pos (beq_self_eq_true c'), hback, extract_of_valid l m (c' :: r)]
      simpa [-ofList_append, List.splitOnPPrepend_cons_eq_if, Nat.add_assoc] using hsplit
    · have hsplit := ih l (m ++ [c']) names
      have hback : Pos.Raw.unoffsetBy ⟨utf8Len l + utf8Len m⟩ 0 = ⟨utf8Len l + utf8Len m⟩ := rfl
      rw [if_neg (by simpa using hc), hback, hnext]
      simpa [-ofList_append, List.splitOnPPrepend_cons_eq_if, hc, Nat.add_assoc] using hsplit

/-- The names on a path are the parts of its characters between slashes. -/
theorem splitOn_slash (path : String) :
    path.splitOn "/" = (path.toList.splitOnP (· == '/')).map ofList := by
  have hsplit := splitOnAux_eq '/' [] [] path.toList []
  simp only [List.nil_append, ofList_toList, List.reverse_nil] at hsplit
  rw [splitOn, if_neg (by decide)]
  exact hsplit

/-- A path leads to where its names lead to from its start. -/
theorem Files.place?_eq (files : Files) (path : String) :
    files.place? path = if path == "" then none
      else files.walk (start path) ((path.toList.splitOnP (· == '/')).map ofList) := by
  rw [place?, splitOn_slash]

end SignOff
