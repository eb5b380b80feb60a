import PackedRecord.Proofs.Format.Grammar
import PackedRecord.Proofs.Format.Parsed
import PackedRecord.Proofs.Format.Size

/-!
Joined format texts.

Groups end with their codes, so a text that was read to its end leaves nothing
pending, and a text behind it is read as it would be alone. A mark belongs to
the whole of a text and cannot come from a body, which begins with none.
-/

namespace PackedRecord

/-- A text that begins with no mark. -/
def Bytes.IsBody (text : Bytes) : Prop :=
  ∀ b ∈ text.head?, b ∉ orderMarks

theorem Bytes.isBody_cons (b : UInt8) (rest : Bytes) : IsBody (b :: rest) ↔ b ∉ orderMarks := by
  simp [IsBody]

instance (text : Bytes) : Decidable text.IsBody :=
  match text with
  | [] => isTrue fun _ h => by contradiction
  | b :: rest => decidable_of_iff (b ∉ orderMarks) (Bytes.isBody_cons b rest).symm

theorem Bytes.IsBody.append {left right : Bytes} (hleft : left.IsBody) (hright : right.IsBody) :
    (left ++ right).IsBody := by
  cases left with
  | nil => exact hright
  | cons b rest => exact hleft

namespace Format

theorem splitMark_body {body : Bytes} (h : body.IsBody) : splitMark body = (.little, body) := by
  cases body with
  | nil => rfl
  | cons b rest =>
      cases horder : orderOfMark? b with
      | none => simp only [splitMark, horder]
      | some order =>
          have hb : b ∈ orderMarks := (isSome_orderOfMark? b).mp (by rw [horder]; rfl)
          exact absurd hb (h b rfl)

/-- Behind a text that was read to its end, reading starts afresh. -/
theorem readItems_append {left right : Bytes} {xs ys : List Item}
    (hleft : readItems none left = .ok xs) (hright : readItems none right = .ok ys) :
    readItems none (left ++ right) = .ok (xs ++ ys) := by
  obtain ⟨first, hfirst, hfirsts, rfl⟩ :=
    groups_of_readItems [] left (fun d hd => absurd hd List.not_mem_nil) hleft
  obtain ⟨second, hsecond, hseconds, rfl⟩ :=
    groups_of_readItems [] right (fun d hd => absurd hd List.not_mem_nil) hright
  rw [List.nil_append] at hfirst hsecond
  have hgroups : ∀ g ∈ first ++ second, g.WellFormed := fun g hg =>
    (List.mem_append.mp hg).elim (hfirsts g) (hseconds g)
  rw [hfirst, hsecond, ← List.flatMap_append, readItems_groups _ hgroups, List.map_append]

/-- Formats under one mark, one behind the other. -/
theorem parse_append {mark : Option UInt8} {left right : Bytes} {first second : Format}
    (hmark : ∀ b ∈ mark, b ∈ orderMarks) (hleft : left.IsBody) (hright : right.IsBody)
    (hfirst : parse (mark.toList ++ left) = .ok first)
    (hsecond : parse (mark.toList ++ right) = .ok second) :
    parse (mark.toList ++ (left ++ right)) = .ok ⟨first.order, first.items ++ second.items⟩ ∧
      first.order = second.order := by
  rw [parse_eq_ok_iff_readItems, splitMark_marked hmark (splitMark_body hleft)] at hfirst
  rw [parse_eq_ok_iff_readItems, splitMark_marked hmark (splitMark_body hright)] at hsecond
  rw [parse_eq_ok_iff_readItems, splitMark_marked hmark (splitMark_body (hleft.append hright))]
  obtain ⟨hxs, hne, horder⟩ := hfirst
  obtain ⟨hys, -, hsame⟩ := hsecond
  exact ⟨⟨readItems_append hxs hys, List.append_ne_nil_of_left_ne_nil hne _, horder⟩,
    horder.trans hsame.symm⟩

end Format

/-- Sizes add up, and overflow when their sum reaches the limit. -/
theorem packedSize_append (xs ys : List Item) :
    packedSize (xs ++ ys) =
      match packedSize xs, packedSize ys with
      | .ok a, .ok b => if a + b < 2 ^ 64 then .ok (a + b) else .error .lengthOverflow
      | _, _ => .error .lengthOverflow := by
  have hlimit : sizeLimit = 2 ^ 64 := rfl
  rw [packedSize_eq, packedSize_eq, packedSize_eq, totalSize_append, hlimit]
  by_cases hx : totalSize xs < 2 ^ 64
  · by_cases hy : totalSize ys < 2 ^ 64
    · rw [if_pos hx, if_pos hy]
    · rw [if_pos hx, if_neg hy, if_neg (by omega)]
  · rw [if_neg hx, if_neg (by omega)]

end PackedRecord
