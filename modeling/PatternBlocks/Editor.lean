import PatternBlocks.Block.Json
import PatternBlocks.Conversion
import PatternBlocks.Json.Reader
import PatternBlocks.Json.Writer

/-! What a block editor asks for, with blocks as JSON text. -/
namespace PatternBlocks.Editor

inductive RenderError where
  /-- The text is not JSON or not a list of blocks. -/
  | unreadable
  | unsound (error : BlockError)
  deriving DecidableEq, Repr

/-- The pattern of a list of blocks, provided that every named group captures. -/
def render (json : String) : Except RenderError String :=
  match (Json.ofText? json).bind Block.ofArray? with
  | none => .error .unreadable
  | some bs =>
    match Block.check bs with
    | .error e => .error (.unsound e)
    | .ok () => .ok (Block.pattern bs)

/-- The blocks of a pattern together with its flags. -/
def parse (pattern flags : String) : Except PatternError String :=
  let flags := Flags.ofString flags
  (Block.ofPattern pattern flags).map fun bs =>
    (Json.object [("nodes", .array (Block.toJsonAll bs)), ("flags", flags.toJson)]).text

/-- The class with a given body. -/
def charClass (body : String) : String := (CharClass.ofBody body).toJson.text

end PatternBlocks.Editor
