import Calculation.Outline.Segment

/-!
Outlines: all that is known of a document once it has been read. Two outlines agree when they differ at most
in the lines they name as changed.
-/
namespace Calculation

structure Outline where
  /-- The root symbols. -/
  symbols : List Symbol
  /-- What to tell the user: the faults of reading, and the findings of a check once there was one. -/
  diagnostics : List Diagnostic
  /-- The faults of reading. -/
  faults : List Diagnostic
  isPartlyValid : Bool
  /-- The lines that the last edit touched, when the outline comes from one. -/
  changedLines : Option (List Nat)
  recovery : Recovery
  segments : List Segment
  lineCount : Nat
deriving DecidableEq, Repr, Inhabited

namespace Outline

/-- A complete symbol that is neither a comment nor skipped. -/
def isValidSymbol (s : Symbol) : Bool :=
  s.isComplete && !s.isComment && !s.isSkipped

/-- The outline of what was read of a document. It is partly valid unless a structural error leaves no valid
symbol. -/
def ofReading (r : Reading) (lineCount : Nat) : Outline :=
  { symbols := r.symbols
    diagnostics := Diagnostic.canonical r.faults
    faults := r.faults
    isPartlyValid :=
      !r.faults.any (fun d => d.isStructural && d.isError) || (Symbol.walkAll r.symbols).any isValidSymbol
    changedLines := none
    recovery := .ofTallies (r.segments.map (·.tally))
    segments := r.segments
    lineCount := lineCount }

/-- An outline of symbols alone, as they come. -/
def ofSymbols (symbols : List Symbol) (recovery : Recovery) : Outline :=
  { symbols := symbols
    diagnostics := []
    faults := []
    isPartlyValid := false
    changedLines := none
    recovery := recovery
    segments := []
    lineCount := 0 }

/-- Reads a whole document. -/
def ofText (options : Options) (text : String) : Outline :=
  let cs := text.toList
  let lines := LineTable.ofText cs
  ofReading (.ofTokens ⟨options, cs, lines⟩ (Token.lex 0 cs)) lines.count

/-- There is a statement in the text, so that reading it could be given up. -/
def hasStatement (text : String) : Bool :=
  (tokenize text).any fun t => !t.kind.isTrivia

/-- Reads a whole document, or nothing of it when the reading is cancelled before the first statement. -/
def ofText? (options : Options) (isCancelled : Bool) (text : String) : Option Outline :=
  if isCancelled && hasStatement text then none else some (ofText options text)

def symbolCount (o : Outline) : Nat :=
  Symbol.countAll o.symbols

def hasErrors (o : Outline) : Bool :=
  o.faults.any (·.isError)

/-- The deepest symbol at an offset. -/
def symbolAt? (o : Outline) (offset : Nat) : Option Symbol :=
  Symbol.findAtAll? offset o.symbols

def walk (o : Outline) : List Symbol :=
  Symbol.walkAll o.symbols

/-- The whole document as one symbol. -/
def documentSymbol (o : Outline) (size : Nat) : Symbol :=
  ⟨"calculation", .calculation, ⟨0, size⟩, o.symbols, o.symbols.all (·.isComplete), []⟩

/-- The same content, whatever lines were changed. -/
def agrees (a b : Outline) : Bool :=
  { a with changedLines := none } == { b with changedLines := none }

/-- The first disorder among the roots: each comes behind the one before and is in order itself. -/
def rootDisorder? (previousStop : Option Nat) : List Symbol → Option Disorder
  | [] => none
  | s :: ss =>
    if previousStop.any (s.range.start < ·) then some (.rootOverlaps s.name)
    else s.disorder?.or (rootDisorder? (some s.range.stop) ss)

def disorder? (o : Outline) : Option Disorder :=
  (rootDisorder? none o.symbols).or
    (if o.recovery.total < o.recovery.recovered then some .tooMuchRecovered else none)

/-- A rough count of the bytes that an outline takes. -/
def footprint (o : Outline) : Nat :=
  160 + Symbol.footprintAll o.symbols +
    sumOf (fun d => 88 + d.message.utf8ByteSize + (d.remedy.map (·.utf8ByteSize)).getD 0) o.faults +
    sumOf (fun d => 72 + d.message.utf8ByteSize) o.diagnostics +
    72 * o.segments.length

end Outline

end Calculation
