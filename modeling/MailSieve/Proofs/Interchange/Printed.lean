import Mathlib.Algebra.Group.Nat.Defs
import MailSieve.Proofs.Interchange.Encoded
import MailSieve.Proofs.Json.Unbroken
import MailSieve.Proofs.Lexing.Place
import MailSieve.Proofs.Located.WellFormed

/-! Scripts read back from their printed JSON.
A script that was read from a text passes the checks of the decoder, and its positions fit into
numbers of 64 bits. So whether its JSON is read back depends only on how deep that is nested. -/

namespace MailSieve

open Json

/-- Positions in a text of less than 2 ^ 63 bytes fit. -/
theorem Script.parse_fitting {o : ParseOptions} {source : String} {s : Script}
    (hsize : source.utf8ByteSize < 2 ^ 63) (h : parse o source = .ok s) : s.Obeys .fitting := by
  have hfits (lead rest : List Char) (hlead : source.toList = lead ++ rest) :
      (Position.origin.after lead).Fits := by
    have hcounted : (Position.origin.after lead).Counted :=
      Position.Counted.after ⟨Nat.le_refl 1, Nat.le_refl 1⟩ lead
    have hle : (Position.origin.after lead).offset ≤ source.utf8ByteSize := by
      have hend := Position.offset_after .origin source.toList
      rw [String.ofList_toList, hlead, Position.after_append] at hend
      have hmore := Position.offset_le_after (Position.origin.after lead) rest
      rw [hend] at hmore
      exact Nat.zero_add source.utf8ByteSize ▸ hmore
    obtain ⟨hline, hcolumn⟩ := hcounted
    have hword : UInt64.size = 2 ^ 64 := rfl
    exact ⟨by omega, by omega, by omega⟩
  let R : Places o := .spanned Position.Fits TreeLaw.fitting.location fun l hstart hstop x hx => by
    obtain ⟨-, rfl⟩ : o.locations = true ∧ l = x := by simpa using hx
    exact ⟨hstart, hstop⟩
  have horigin : Position.origin.Fits := hfits [] source.toList rfl
  exact parse_placed (R := R) horigin horigin (fun _ => readingsFrom_spanned hfits) h

namespace Interchange

section Sound

open Record.Sound

theorem decodePosition_sound : decodePosition.Sound :=
  ((((field decodeNatural_sound).map).seq (field decodeNatural_sound)).seq
    (field decodeNatural_sound)).decode

theorem decodeLocation_sound : decodeLocation.Sound :=
  (((field decodePosition_sound).map).seq (field decodePosition_sound)).decode

theorem decodeCommand_sound : decodeCommand.Sound := fun j c h =>
  decodeTagged_sound (decodeVariant_sound commandKinds) j c h

theorem decodeScript_sound : decodeScript.Sound :=
  (((field decodeCommand_sound.list).map).seq (optional decodeLocation_sound)).decode

end Sound

section Printed

variable {s : Script}

theorem depthMembers_locationMember_le (l : Option Location) :
    depthMembers (locationMember l) ≤ 2 := by
  cases l with
  | none => exact Nat.zero_le _
  | some l => exact Nat.le_refl _

theorem depth_commands (hd : maxDepth < (encodeScript s).depth) :
    maxDepth < (Json.array (encodeCommands s.commands)).depth + 1 := by
  have hlocation := depthMembers_locationMember_le s.location
  have hmax : maxDepth = 127 := rfl
  rw [encodeScript, depth, depthMembers] at hd
  omega

/-- The JSON of a script that was read is plain and decoded as that script. -/
theorem parsed_denoted {o : ParseOptions} {source : String}
    (hsize : source.utf8ByteSize < 2 ^ 63) (h : Script.parse o source = .ok s) :
    (encodeScript s).Plain ∧ decodeScript (encodeScript s) = .ok s :=
  have hdenoted := script_denoted s
  have hchecked := Script.obeys_of_parse checked_grammatical checked_overlooks h
  ⟨hdenoted.plain (Script.parse_fitting hsize h), (hdenoted.decodes s).2 ⟨hchecked, rfl⟩⟩

theorem encodeScript_suits (s : Script) : (encodeScript s).Suits scriptInterest := by
  have hlocation : SuitsMembers scriptInterest (locationMember s.location) := by
    cases s.location with
    | none => trivial
    | some l => exact ⟨⟨⟨trivial, trivial, trivial, trivial⟩, ⟨trivial, trivial, trivial, trivial⟩,
        trivial⟩, trivial⟩
  exact ⟨Interest.IsUniform.whole, hlocation⟩

theorem readScript_printed (hs : (encodeScript s).Plain ∧ decodeScript (encodeScript s) = .ok s)
    (hd : (encodeScript s).depth ≤ maxDepth) :
    readScript ((encodeScript s).pretty ++ "\n") = .ok s := by
  obtain ⟨hplain, hdecodes⟩ := hs
  rw [readScript, decodeText, read_pretty hplain (encodeScript_suits s) lineFeed_blank hd]
  dsimp only
  rw [hdecodes]
  rfl

/-- A text that is nested too deep breaks off there, and nothing that breaks off is decoded. -/
theorem readScript_printed_deep
    (hs : (encodeScript s).Plain ∧ decodeScript (encodeScript s) = .ok s)
    (hd : maxDepth < (encodeScript s).depth) :
    ∃ e, readScript ((encodeScript s).pretty ++ "\n") = .error e := by
  obtain ⟨hcommands, hlocation⟩ := hs.1
  have hbroken : (read scriptInterest ((encodeScript s).pretty ++ "\n")).value.fault?
      = some .malformed :=
    read_pretty_deep hcommands hlocation lineFeed_blank rfl (depth_commands hd)
  cases hread : readScript ((encodeScript s).pretty ++ "\n") with
  | error e => exact ⟨e, rfl⟩
  | ok u =>
    obtain ⟨v, hv, -⟩ := bind_eq_ok.1 hread
    rw [decodeScript_sound _ v hv] at hbroken
    cases hbroken

end Printed

end Interchange

end MailSieve
