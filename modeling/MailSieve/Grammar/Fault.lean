import MailSieve.Token.Reading

/-! Why a source is no script.
Each cause holds what its report needs: the place, the text found there, and what would have been
acceptable. `diagnostic` gives every cause its wording. -/

namespace MailSieve

inductive Fault where
  | lexical (misreading : Misreading)
  | unexpected (location : Location) (found : Option String) (expected : List Expected)
  | tooDeep (limit : Nat) (location : Location) (found : String)
  | unknownTag (name : String) (location : Location) (found : String) (allowed : List String)
  | conflictingTag (name : String) (location : Location) (found : String)
  | badOperator (value : String) (location : Location)
  | badImportance (value : String) (location : Location)
  | orphanBranch (name : String) (location : Location)
deriving DecidableEq

namespace Fault

def diagnostic : Fault → Diagnostic
  | lexical m => m.diagnostic
  | unexpected location found expected => .unexpected location found expected
  | tooDeep limit location found =>
    .grammatical ("Maximum nesting depth of " ++ toString limit ++ " exceeded") location
      (some found)
  | unknownTag name location found allowed =>
    (Diagnostic.grammatical ("Unexpected tag ':" ++ name ++ "'") location (some found)).withExpected
      (allowed.map fun t => .literal (":" ++ t))
  | conflictingTag name location found =>
    .grammatical ("Duplicate or conflicting tag ':" ++ name ++ "'") location (some found)
  | badOperator value location =>
    (Diagnostic.grammatical ("Invalid relational operator \"" ++ value ++ "\"") location
      (some value)).withExpected (RelationalOperator.values.map fun o => .literal o.word)
  | badImportance value location =>
    (Diagnostic.grammatical ("Invalid importance \"" ++ value ++ "\"") location
      (some value)).withExpected (Importance.values.map fun i => .literal i.word)
  | orphanBranch name location =>
    .grammatical ("'" ++ name ++ "' without a preceding 'if'") location (some name)

end Fault

end MailSieve
