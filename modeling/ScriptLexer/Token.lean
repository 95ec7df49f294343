import ScriptLexer.Bytes
import ScriptLexer.Span

namespace ScriptLexer

/-- Operators and punctuation. Those that neither `symbols` nor `words` spells are reserved. -/
inductive Operator where
  | leftParen | rightParen | leftSquare | rightSquare | leftBrace | rightBrace | comma | dot
  | semicolon | questionMark | colon | tilde | plus | minus | star | slash | percent
  | ampersand | pipe | bitAnd | bitOr | bitXor | bitNot | mod | div | bang | bangEqual | equal
  | equalEqual | greater | greaterEqual | less | lessEqual | plusPlus | minusMinus | plusEqual
  | minusEqual | slashEqual | starEqual | percentEqual | leftShift | rightShift
  | ampersandEqual | ampersandAmpersand | pipeEqual | pipePipe | dotDot
deriving DecidableEq, Repr

inductive Keyword where
  | kwAnd | kwElse | kwFalse | kwDef | kwFor | kwIf | kwOr | kwPrint | kwReturn | kwTrue
  | kwWhile | kwIn | kwAs | kwBreak
deriving DecidableEq, Repr

inductive Kind where
  | operator (o : Operator)
  | identifier
  | string
  | number
  | keyword (k : Keyword)
  | unidentified
  | endOfText
deriving DecidableEq, Repr

namespace Operator

def all : List Operator :=
  [.leftParen, .rightParen, .leftSquare, .rightSquare, .leftBrace, .rightBrace, .comma, .dot,
    .semicolon, .questionMark, .colon, .tilde, .plus, .minus, .star, .slash, .percent,
    .ampersand, .pipe, .bitAnd, .bitOr, .bitXor, .bitNot, .mod, .div, .bang, .bangEqual,
    .equal, .equalEqual, .greater, .greaterEqual, .less, .lessEqual, .plusPlus, .minusMinus,
    .plusEqual, .minusEqual, .slashEqual, .starEqual, .percentEqual, .leftShift, .rightShift,
    .ampersandEqual, .ampersandAmpersand, .pipeEqual, .pipePipe, .dotDot]

def name : Operator → String
  | .leftParen => "LEFT_PAREN"
  | .rightParen => "RIGHT_PAREN"
  | .leftSquare => "LEFT_SQUARE"
  | .rightSquare => "RIGHT_SQUARE"
  | .leftBrace => "LEFT_BRACE"
  | .rightBrace => "RIGHT_BRACE"
  | .comma => "COMMA"
  | .dot => "DOT"
  | .semicolon => "SEMICOLON"
  | .questionMark => "QUESTION_MARK"
  | .colon => "COLON"
  | .tilde => "TILDE"
  | .plus => "PLUS"
  | .minus => "MINUS"
  | .star => "STAR"
  | .slash => "SLASH"
  | .percent => "PERCENT"
  | .ampersand => "AMPERSAND"
  | .pipe => "PIPE"
  | .bitAnd => "BIT_AND"
  | .bitOr => "BIT_OR"
  | .bitXor => "BIT_XOR"
  | .bitNot => "BIT_NOT"
  | .mod => "MOD"
  | .div => "DIV"
  | .bang => "BANG"
  | .bangEqual => "BANG_EQUAL"
  | .equal => "EQUAL"
  | .equalEqual => "EQUAL_EQUAL"
  | .greater => "GREATER"
  | .greaterEqual => "GREATER_EQUAL"
  | .less => "LESS"
  | .lessEqual => "LESS_EQUAL"
  | .plusPlus => "PLUS_PLUS"
  | .minusMinus => "MINUS_MINUS"
  | .plusEqual => "PLUS_EQUAL"
  | .minusEqual => "MINUS_EQUAL"
  | .slashEqual => "SLASH_EQUAL"
  | .starEqual => "STAR_EQUAL"
  | .percentEqual => "PERCENT_EQUAL"
  | .leftShift => "LEFT_SHIFT"
  | .rightShift => "RIGHT_SHIFT"
  | .ampersandEqual => "AMPERSAND_EQUAL"
  | .ampersandAmpersand => "AMPERSAND_AMPERSAND"
  | .pipeEqual => "PIPE_EQUAL"
  | .pipePipe => "PIPE_PIPE"
  | .dotDot => "DOT_DOT"

/-- The operators made of symbols. Of two that start alike the longer stands first, so the first
one that the text starts with is the longest. -/
def symbols : List (Bytes × Operator) :=
  [(Bytes.ofString "..", .dotDot), (Bytes.ofString "-=", .minusEqual),
    (Bytes.ofString "--", .minusMinus), (Bytes.ofString "+=", .plusEqual),
    (Bytes.ofString "++", .plusPlus), (Bytes.ofString "!=", .bangEqual),
    (Bytes.ofString "==", .equalEqual), (Bytes.ofString "<=", .lessEqual),
    (Bytes.ofString "<<", .leftShift), (Bytes.ofString ">=", .greaterEqual),
    (Bytes.ofString ">>", .rightShift), (Bytes.ofString "/=", .slashEqual),
    (Bytes.ofString "%=", .percentEqual), (Bytes.ofString "&&", .ampersandAmpersand),
    (Bytes.ofString "||", .pipePipe), (Bytes.ofString "(", .leftParen),
    (Bytes.ofString ")", .rightParen), (Bytes.ofString "[", .leftSquare),
    (Bytes.ofString "]", .rightSquare), (Bytes.ofString "\x7b", .leftBrace),
    (Bytes.ofString "\x7d", .rightBrace), (Bytes.ofString ",", .comma),
    (Bytes.ofString ";", .semicolon), (Bytes.ofString "*", .star), (Bytes.ofString ".", .dot),
    (Bytes.ofString "-", .minus), (Bytes.ofString "+", .plus), (Bytes.ofString "!", .bang),
    (Bytes.ofString "=", .equal), (Bytes.ofString "<", .less), (Bytes.ofString ">", .greater),
    (Bytes.ofString "/", .slash), (Bytes.ofString "%", .percent),
    (Bytes.ofString "&", .ampersand), (Bytes.ofString "|", .pipe)]

def words : List (Bytes × Operator) :=
  [(Bytes.ofString "\x60and\x60", .bitAnd), (Bytes.ofString "\x60or\x60", .bitOr),
    (Bytes.ofString "\x60xor\x60", .bitXor), (Bytes.ofString "\x60mod\x60", .mod),
    (Bytes.ofString "\x60div\x60", .div)]

def symbolAt? (bs : Bytes) : Option (Bytes × Operator) := symbols.find? (·.1.isPrefixOf bs)

def ofWord? (bs : Bytes) : Option Operator := words.lookup bs

end Operator

namespace Keyword

def all : List Keyword :=
  [.kwAnd, .kwElse, .kwFalse, .kwDef, .kwFor, .kwIf, .kwOr, .kwPrint, .kwReturn, .kwTrue,
    .kwWhile, .kwIn, .kwAs, .kwBreak]

def name : Keyword → String
  | .kwAnd => "AND"
  | .kwElse => "ELSE"
  | .kwFalse => "FALSE"
  | .kwDef => "DEF"
  | .kwFor => "FOR"
  | .kwIf => "IF"
  | .kwOr => "OR"
  | .kwPrint => "PRINT"
  | .kwReturn => "RETURN"
  | .kwTrue => "TRUE"
  | .kwWhile => "WHILE"
  | .kwIn => "IN"
  | .kwAs => "AS"
  | .kwBreak => "BREAK"

def words : List (Bytes × Keyword) :=
  [(Bytes.ofString "and", .kwAnd), (Bytes.ofString "else", .kwElse),
    (Bytes.ofString "false", .kwFalse), (Bytes.ofString "def", .kwDef),
    (Bytes.ofString "for", .kwFor), (Bytes.ofString "if", .kwIf), (Bytes.ofString "or", .kwOr),
    (Bytes.ofString "print", .kwPrint), (Bytes.ofString "return", .kwReturn),
    (Bytes.ofString "true", .kwTrue), (Bytes.ofString "while", .kwWhile),
    (Bytes.ofString "in", .kwIn), (Bytes.ofString "as", .kwAs),
    (Bytes.ofString "break", .kwBreak)]

def ofWord? (bs : Bytes) : Option Keyword := words.lookup bs

end Keyword

namespace Kind

def all : List Kind :=
  Operator.all.map .operator ++ [.identifier, .string, .number] ++ Keyword.all.map .keyword ++
    [.unidentified, .endOfText]

def name : Kind → String
  | .operator o => o.name
  | .identifier => "IDENTIFIER"
  | .string => "STRING"
  | .number => "NUMBER"
  | .keyword k => k.name
  | .unidentified => "UNIDENTIFIED"
  | .endOfText => "END"

def ofName? (s : String) : Option Kind := all.find? (·.name == s)

def rank (k : Kind) : Nat := all.idxOf k

def isKeyword : Kind → Bool
  | .keyword _ => true
  | _ => false

def isLiteral : Kind → Bool
  | .identifier | .string | .number => true
  | _ => false

theorem mem_all (k : Kind) : k ∈ all := by
  cases k with
  | operator o => cases o <;> decide
  | keyword k => cases k <;> decide
  | _ => decide

theorem getElem?_rank (k : Kind) : all[k.rank]? = some k := by
  have hlt := List.idxOf_lt_length_of_mem (mem_all k)
  exact List.getElem?_eq_some_iff.mpr ⟨hlt, List.getElem_idxOf hlt⟩

theorem ofName?_name (k : Kind) : ofName? k.name = some k := by
  cases k with
  | operator o => cases o <;> decide
  | keyword k => cases k <;> decide
  | _ => decide

end Kind

namespace Operator

theorem symbols_ne_nil : ∀ s ∈ symbols, s.1 ≠ [] := by
  decide

theorem symbolAt?_length {bs s : Bytes} {o : Operator} (h : symbolAt? bs = some (s, o)) :
    0 < s.length ∧ s.length ≤ bs.length := by
  have hm := symbols_ne_nil _ (List.mem_of_find?_eq_some h)
  have hp := List.find?_some h
  exact ⟨List.length_pos_iff.mpr hm, (List.isPrefixOf_iff_prefix.mp hp).length_le⟩

end Operator

structure Token where
  kind : Kind
  lexeme : Bytes
  span : Span
  line : Nat
deriving DecidableEq, Repr

namespace Token

def isProduced (t : Token) : Bool := t.kind != .unidentified && t.kind != .endOfText

def length (t : Token) : Nat := t.span.length

def isEmpty (t : Token) : Bool := t.span.isEmpty

def shift (bytes lines : Nat) (t : Token) : Token :=
  { t with span := t.span.shift bytes, line := t.line + lines }

def row (t : Token) : Bytes := t.lexeme ++ Byte.tab :: Bytes.ofString t.kind.name

end Token

end ScriptLexer
