import Calculation.Text.Slice
import Calculation.Token.Rules

/-!
Cutting text into tokens by longest match. The tokens of a text follow each other without a gap and
their texts together are the text; a character that no rule accepts is a token of its own.
-/
namespace Calculation

structure Token where
  kind : Token.Kind
  text : String
  range : Range
  /-- Its closing delimiter is missing. -/
  isOpen : Bool
deriving DecidableEq, Repr, Inhabited

namespace Token

/-- The longest match so far, `best`, against those of further rules; an earlier rule wins a tie. -/
def longest (cs : List Char) (best : Option (Kind × Match)) : List Rule → Option (Kind × Match)
  | [] => best
  | rule :: rules =>
    match rule.scan cs, best with
    | none, _ => longest cs best rules
    | some found, none => longest cs (some (rule.kind, found)) rules
    | some found, some (kind, old) =>
      longest cs (some (if old.size < found.size then (rule.kind, found) else (kind, old))) rules

/-- What the first token of a text is. -/
def first (cs : List Char) : Kind × Match :=
  (longest cs none Rule.all).getD (.invalid, ⟨1, false⟩)

/-- The tokens of a text that starts at `offset` of a document. -/
def lex (offset : Nat) : List Char → List Token
  | [] => []
  | c :: cs =>
    let found := first (c :: cs)
    let text := c :: cs.take (found.2.size - 1)
    let stop := offset + Text.bytes text
    ⟨found.1, .ofList text, ⟨offset, stop⟩, found.2.isOpen⟩ :: lex stop (cs.drop (found.2.size - 1))
termination_by cs => cs.length
decreasing_by simp only [List.length_drop, List.length_cons]; omega

end Token

/-- The tokens of a whole text. -/
def tokenize (text : String) : List Token :=
  Token.lex 0 text.toList

end Calculation
