import ScriptLexer.Token

/-!
The lexical grammar of a script. Whether a stretch of text is trivia or a word can depend on the
text after it, so both are relations between the stretch and what follows.
-/

namespace ScriptLexer.Grammar

inductive Piece : Bytes → Bytes → Prop
  | layout (b : UInt8) (after : Bytes) : Byte.isLayout b → Piece [b] after
  | line (body after : Bytes) : Byte.lineFeed ∉ body →
      after = [] ∨ after.head? = some Byte.lineFeed →
      Piece (Byte.slash :: Byte.slash :: body) after
  | block (body after : Bytes) : ¬ [Byte.star, Byte.slash] <:+: body →
      Piece (Byte.slash :: Byte.star :: (body ++ [Byte.star, Byte.slash])) after

inductive Gap : Bytes → Bytes → Prop
  | nil (after : Bytes) : Gap [] after
  | cons (p g after : Bytes) : Piece p (g ++ after) → Gap g after → Gap (p ++ g) after

structure LeadingTrivia (text gap rest : Bytes) : Prop where
  text_eq : text = gap ++ rest
  isGap : Gap gap rest
  longest : ∀ g r, text = g ++ r → Gap g r → g.length ≤ gap.length

def Digits (ds : Bytes) : Prop := ∀ d ∈ ds, Byte.isDigit d

inductive Exponent : Bytes → Prop
  | absent : Exponent []
  | written (mark : UInt8) (sign ds : Bytes) : Byte.isExponentMark mark → sign.length ≤ 1 →
      (∀ b ∈ sign, Byte.isSign b) → Digits ds → Exponent (mark :: (sign ++ ds))

/-- The point of `pointed` is not the first point of a range. -/
inductive Number : Bytes → Bytes → Prop
  | whole (ds e after : Bytes) : ds ≠ [] → Digits ds → Exponent e → Number (ds ++ e) after
  | pointed (ds fs e after : Bytes) : ds ≠ [] → Digits ds → Digits fs → Exponent e →
      (fs ++ e ++ after).head? ≠ some Byte.point → Number (ds ++ Byte.point :: (fs ++ e)) after
  | fraction (fs e after : Bytes) : fs ≠ [] → Digits fs → Exponent e →
      Number (Byte.point :: (fs ++ e)) after

def spelling? : Operator → Option String
  | .leftParen => some "("
  | .rightParen => some ")"
  | .leftSquare => some "["
  | .rightSquare => some "]"
  | .leftBrace => some "\x7b"
  | .rightBrace => some "\x7d"
  | .comma => some ","
  | .semicolon => some ";"
  | .star => some "*"
  | .dot => some "."
  | .dotDot => some ".."
  | .minus => some "-"
  | .minusEqual => some "-="
  | .minusMinus => some "--"
  | .plus => some "+"
  | .plusEqual => some "+="
  | .plusPlus => some "++"
  | .bang => some "!"
  | .bangEqual => some "!="
  | .equal => some "="
  | .equalEqual => some "=="
  | .less => some "<"
  | .lessEqual => some "<="
  | .leftShift => some "<<"
  | .greater => some ">"
  | .greaterEqual => some ">="
  | .rightShift => some ">>"
  | .slash => some "/"
  | .slashEqual => some "/="
  | .percent => some "%"
  | .percentEqual => some "%="
  | .ampersand => some "&"
  | .ampersandAmpersand => some "&&"
  | .pipe => some "|"
  | .pipePipe => some "||"
  | .questionMark | .colon | .tilde | .starEqual | .ampersandEqual | .pipeEqual => none
  | .bitAnd | .bitOr | .bitXor | .bitNot | .mod | .div => none

def nameKind (w : Bytes) : Kind := ((Keyword.ofWord? w).map .keyword).getD .identifier

def backtickKind (w : Bytes) : Kind := ((Operator.ofWord? w).map .operator).getD .unidentified

inductive Word : Bytes → Bytes → Kind → Prop
  | operator (o : Operator) (s : String) (after : Bytes) : spelling? o = some s →
      Word (Bytes.ofString s) after (.operator o)
  | name (b : UInt8) (rest after : Bytes) : Byte.isNameStart b → (∀ c ∈ rest, Byte.isNamePart c) →
      Word (b :: rest) after (nameKind (b :: rest))
  | number (w after : Bytes) : Number w after → Word w after .number
  | string (body after : Bytes) : Byte.quote ∉ body →
      Word (Byte.quote :: (body ++ [Byte.quote])) after .string
  | backtick (body after : Bytes) : Byte.backtick ∉ body →
      Word (Byte.backtick :: (body ++ [Byte.backtick])) after
        (backtickKind (Byte.backtick :: (body ++ [Byte.backtick])))

def BeginsWord (text : Bytes) : Prop := ∃ w after k, text = w ++ after ∧ Word w after k

/-- What is read at the front of text without leading trivia: the longest word, and where there is
no word or a comment stays open, an end, the whole text or one character. -/
inductive Reads : Bytes → Bytes → Kind → Prop
  | endOfText : Reads [] [] .endOfText
  | openComment (body : Bytes) : ¬ [Byte.star, Byte.slash] <:+: body →
      Reads (Byte.slash :: Byte.star :: body) [] .unidentified
  | word (w after : Bytes) (k : Kind) : ¬ [Byte.slash, Byte.star] <+: w ++ after → Word w after k →
      (∀ v r j, w ++ after = v ++ r → Word v r j → v.length ≤ w.length) → Reads w after k
  | openString (body : Bytes) : ¬ BeginsWord (Byte.quote :: body) →
      Reads (Byte.quote :: body) [] .string
  | openBacktick (body : Bytes) : ¬ BeginsWord (Byte.backtick :: body) →
      Reads (Byte.backtick :: body) [] .unidentified
  | stray (c : Char) (after : Bytes) : ¬ BeginsWord (String.utf8EncodeChar c ++ after) →
      String.utf8EncodeChar c ≠ [Byte.quote] → String.utf8EncodeChar c ≠ [Byte.backtick] →
      Reads (String.utf8EncodeChar c) after .unidentified

end ScriptLexer.Grammar
