import ScriptLexer.Proofs.JsonEncoding
import ScriptLexer.Proofs.JsonUnambiguity
import ScriptLexer.Proofs.LineCounting
import ScriptLexer.Proofs.LineStarts
import ScriptLexer.Proofs.TokenTiling

namespace ScriptLexer

open JsonGrammar

namespace Kind

def declared : List String :=
  ["LeftParen", "RightParen", "LeftSquare", "RightSquare", "LeftBrace", "RightBrace", "Comma",
    "Dot", "Semicolon", "QuestionMark", "Colon", "Tilde", "Plus", "Minus", "Star", "Slash",
    "Percent", "Ampersand", "Pipe", "BitAnd", "BitOr", "BitXor", "BitNot", "Mod", "Div", "Bang",
    "BangEqual", "Equal", "EqualEqual", "Greater", "GreaterEqual", "Less", "LessEqual", "PlusPlus",
    "MinusMinus", "PlusEqual", "MinusEqual", "SlashEqual", "StarEqual", "PercentEqual",
    "LeftShift", "RightShift", "AmpersandEqual", "AmpersandAmpersand", "PipeEqual", "PipePipe",
    "DotDot", "Identifier", "String", "Number", "And", "Else", "False", "Def", "For", "If", "Or",
    "Print", "Return", "True", "While", "In", "As", "Break", "Unidentified", "End"]

/-- A declared name in capitals, with its words joined by underscores. -/
def capitals (name : String) : String :=
  String.ofList ((name.toList.flatMap fun c => if c.isUpper then ['_', c] else [c.toUpper]).drop 1)

theorem name_all : all.map name = declared.map capitals := by
  decide +kernel

theorem exists_declared (k : Kind) :
    ∃ declaredName, declared[k.rank]? = some declaredName ∧ k.name = capitals declaredName := by
  have hname : (declared.map capitals)[k.rank]? = some k.name := by
    rw [← name_all, List.getElem?_map, getElem?_rank, Option.map_some]
  rw [List.getElem?_map] at hname
  obtain ⟨declaredName, hdeclared, hcapitals⟩ := Option.map_eq_some_iff.mp hname
  exact ⟨declaredName, hdeclared, hcapitals.symm⟩

end Kind

/-- The object that a token is listed as, with what its text says of it. -/
def Describes (text : Text) (t : Token) (v : Value) : Prop :=
  (∃ declaredName, Kind.declared[t.kind.rank]? = some declaredName ∧
    t.kind.name = Kind.capitals declaredName) ∧
  Kind.ofName? t.kind.name = some t.kind ∧
  ∃ lexeme : String,
    text.slice? t.span.start t.span.stop = some (Bytes.ofString lexeme) ∧
      v = .object [("kind", .string t.kind.name), ("lexeme", .string lexeme),
        ("line", .number (text.lineAt t.span.start)),
        ("column", .number (text.columnAt t.span.start)), ("start", .number t.span.start),
        ("end", .number (t.span.start + lexeme.utf8ByteSize : Nat))]

namespace Cursor

theorem describes_next {c : Cursor} {s : String} (h : c.StandsIn (Bytes.ofString s))
    (ht : Bytes.IsText c.unread) :
    ∃ v, Describes s.toUTF8 c.next.token v ∧
      ObjectMeans (Listing.Json.object (LineIndex.ofText s.toUTF8) c.next.token) v := by
  obtain ⟨lexeme, hlexeme⟩ := (isText_lexeme_next ht).exists_ofString
  have hslice := slice_next h ht
  have hline : c.next.token.line = Text.lineAt s.toUTF8 c.next.token.span.start := by
    rw [← LineIndex.lineOf_eq_lineAt]
    exact (@StandsIn.located_next c s.toUTF8 h).token_line
  have hstart : c.next.token.span.start ≤ s.toUTF8.size := by
    rw [(span_next c).1, ← Text.length_bytes]
    exact h.skipTrivia.pos_le
  have hcolumn : ((LineIndex.ofText s.toUTF8).locate c.next.token.span.start).column =
      Text.columnAt s.toUTF8 c.next.token.span.start := by
    rw [LineIndex.locate_eq hstart]
  have hstop : c.next.token.span.stop = c.next.token.span.start + lexeme.utf8ByteSize := by
    rw [Span.stop, ← length_lexeme_next, hlexeme]
    exact congrArg _ (Text.length_bytes lexeme.toUTF8)
  rw [hlexeme] at hslice
  have hname := Kind.exists_declared c.next.token.kind
  refine ⟨_, ⟨hname, Kind.ofName?_name _, lexeme, hslice, rfl⟩,
    ObjectMeans.mk _ (List.cons_ne_nil _ _) ?_⟩
  unfold Listing.Json.object
  rw [hlexeme, hline, hcolumn, hstop]
  apply List.Forall₂.cons ⟨rfl, Means.string _⟩
  apply List.Forall₂.cons ⟨rfl, Means.string _⟩
  apply List.Forall₂.cons ⟨rfl, Means.number _⟩
  apply List.Forall₂.cons ⟨rfl, Means.number _⟩
  apply List.Forall₂.cons ⟨rfl, Means.number _⟩
  apply List.Forall₂.cons ⟨rfl, Means.number _⟩
  exact List.Forall₂.nil

end Cursor

theorem exists_described (s : String) (ts : List Token)
    (h : ∀ t ∈ ts, t ∈ (Cursor.ofString s).tokens) :
    ∃ vs, List.Forall₂ (Describes s.toUTF8) ts vs ∧
      List.Forall₂ ObjectMeans (ts.map (Listing.Json.object (LineIndex.ofText s.toUTF8))) vs := by
  induction ts with
  | nil => exact ⟨[], List.Forall₂.nil, List.Forall₂.nil⟩
  | cons t ts ih =>
    obtain ⟨ht, hts⟩ := List.forall_mem_cons.mp h
    obtain ⟨vs, hd, hm⟩ := ih hts
    obtain ⟨k, rfl⟩ := Cursor.exists_of_mem_tokens ht
    obtain ⟨v, hv, ho⟩ :=
      Cursor.describes_next (Cursor.standsIn_ofString s k) (Cursor.isText_ofString s k)
    exact ⟨v :: vs, List.Forall₂.cons hv hd, List.Forall₂.cons ho hm⟩

theorem json_listing_decodes (s : String) :
    ∃ body vs,
      Listing.json (LineIndex.ofText s.toUTF8) (scan (Bytes.ofString s)).tokens =
        body ++ [Byte.lineFeed] ∧
      Denotes body (.array vs) ∧
      List.Forall₂ (Describes s.toUTF8) (scan (Bytes.ofString s)).tokens vs ∧
      ∀ v, Padded Denotes
        (Listing.json (LineIndex.ofText s.toUTF8) (scan (Bytes.ofString s)).tokens) v ↔
          v = .array vs := by
  have hproduced : ∀ t ∈ (scan (Bytes.ofString s)).tokens, t ∈ (Cursor.ofString s).tokens :=
    fun t ht => (List.mem_filter.mp ht).1
  obtain ⟨vs, hdescribes, hmeans⟩ := exists_described s _ hproduced
  have hbody := denotes_renderArray hmeans
  have htext := Padded.mk [] _ [Byte.lineFeed] _ (by decide) hbody (by decide)
  refine ⟨_, vs, rfl, hbody, hdescribes, fun v => ⟨fun hv => text_value_unique hv htext, ?_⟩⟩
  rintro rfl
  exact htext

end ScriptLexer
