import Mathlib.Data.String.Basic
import MailSieve.Proofs.Lexing.Place

/-! Parts of a source.
A part is cut out by the bytes at which it begins and ends. At places that are reached character by
character it is the text between them. -/

namespace MailSieve

/-- From byte `start` up to byte `stop`. -/
def textBetween (source : String) (start stop : Nat) : String :=
  String.Pos.Raw.extract source ⟨start⟩ ⟨stop⟩

/-- The source with `text` put in at byte `offset`. -/
def inserted (source : String) (offset : Nat) (text : String) : String :=
  textBetween source 0 offset ++ text ++ textBetween source offset source.utf8ByteSize

section Slices

variable {source : String} {lead mid rest : List Char}

theorem Position.offset_origin_after (cs : List Char) :
    (origin.after cs).offset = (String.ofList cs).utf8ByteSize := by
  rw [offset_after]
  exact Nat.zero_add _

theorem textBetween_after (h : source.toList = lead ++ (mid ++ rest)) :
    textBetween source (Position.origin.after lead).offset
      ((Position.origin.after lead).after mid).offset = String.ofList mid := by
  have hsource : source = String.ofList (lead ++ mid ++ rest) := by
    rw [List.append_assoc, ← h, String.ofList_toList]
  rw [textBetween, Position.offset_after _ mid, Position.offset_origin_after,
    String.utf8ByteSize_ofList, String.utf8ByteSize_ofList, hsource]
  exact String.extract_of_valid lead mid rest

theorem textBetween_before (h : source.toList = lead ++ rest) :
    textBetween source 0 (Position.origin.after lead).offset = String.ofList lead := by
  have hnil : source.toList = [] ++ (lead ++ rest) := h
  exact textBetween_after hnil

theorem textBetween_behind (h : source.toList = lead ++ rest) :
    textBetween source (Position.origin.after lead).offset source.utf8ByteSize
      = String.ofList rest := by
  have hall : source.toList = lead ++ (rest ++ []) := by rw [List.append_nil, h]
  have hend : source.utf8ByteSize = ((Position.origin.after lead).after rest).offset := by
    rw [← Position.after_append, ← h, Position.offset_origin_after, String.ofList_toList]
  rw [hend, textBetween_after hall]

theorem inserted_after (h : source.toList = lead ++ rest) (text : String) :
    (inserted source (Position.origin.after lead).offset text).toList
      = lead ++ (text.toList ++ rest) := by
  rw [inserted, textBetween_before h, textBetween_behind h, String.toList_append,
    String.toList_append, String.toList_ofList, String.toList_ofList, List.append_assoc]

end Slices

end MailSieve
