import ScriptLexer.LineIndex.Basic
import ScriptLexer.Token

namespace ScriptLexer.Listing

def plain (ts : List Token) : Bytes := ts.flatMap fun t => t.row ++ [Byte.lineFeed]

theorem plain_nil : plain [] = [] := rfl

theorem plain_cons (t : Token) (ts : List Token) :
    plain (t :: ts) = t.row ++ Byte.lineFeed :: plain ts := by
  simp [plain]

theorem plain_append (ts us : List Token) : plain (ts ++ us) = plain ts ++ plain us := by
  simp [plain]

namespace Json

inductive Scalar where
  | number (n : Nat)
  | string (bs : Bytes)
deriving DecidableEq, Repr

abbrev Object := List (String × Scalar)

def hexDigit (n : UInt8) : UInt8 := if n < 10 then 0x30 + n else 0x57 + n

def shortEscapes : List (UInt8 × UInt8) :=
  [(Byte.quote, Byte.quote), (Byte.backslash, Byte.backslash), (0x08, 0x62), (Byte.tab, 0x74),
    (Byte.lineFeed, 0x6e), (0x0c, 0x66), (Byte.carriageReturn, 0x72)]

def escape (b : UInt8) : Bytes :=
  match shortEscapes.lookup b with
  | some c => [Byte.backslash, c]
  | none =>
    if b < Byte.blank then
      Byte.backslash :: Bytes.ofString "u00" ++ [hexDigit (b / 16), hexDigit (b % 16)]
    else
      [b]

def quoted (bs : Bytes) : Bytes := Byte.quote :: bs.flatMap escape ++ [Byte.quote]

def Scalar.render : Scalar → Bytes
  | .number n => Bytes.ofString (toString n)
  | .string bs => quoted bs

def renderMember (m : String × Scalar) : Bytes :=
  Bytes.ofString "    " ++ quoted (Bytes.ofString m.1) ++ Bytes.ofString ": " ++ m.2.render

def separator : Bytes := Bytes.ofString ",\n"

def renderObject (o : Object) : Bytes :=
  Bytes.ofString "  \x7b\n" ++ separator.intercalate (o.map renderMember) ++
    Bytes.ofString "\n  \x7d"

def renderArray : List Object → Bytes
  | [] => Bytes.ofString "[]"
  | os => Bytes.ofString "[\n" ++ separator.intercalate (os.map renderObject) ++
      Bytes.ofString "\n]"

def object (index : LineIndex) (t : Token) : Object :=
  [("kind", .string (Bytes.ofString t.kind.name)), ("lexeme", .string t.lexeme),
    ("line", .number t.line), ("column", .number (index.locate t.span.start).column),
    ("start", .number t.span.start), ("end", .number t.span.stop)]

end Json

def json (index : LineIndex) (ts : List Token) : Bytes :=
  Json.renderArray (ts.map (Json.object index)) ++ [Byte.lineFeed]

end ScriptLexer.Listing
