import ScriptLexer.Lexeme.Rule

namespace ScriptLexer.Trivia

/-- The length of the comment whose first slash has been seen, without that slash. -/
def comment : Rule
  | [] => 0
  | b :: rest =>
    if b = Byte.slash then Rule.run (· != Byte.lineFeed) rest + 1
    else if b = Byte.star then (Rule.throughPair? Byte.star Byte.slash rest).elim 0 (· + 1)
    else 0

def piece : Rule
  | [] => 0
  | b :: rest =>
    if Byte.isLayout b then 1
    else if b = Byte.slash ∧ comment rest ≠ 0 then comment rest + 1
    else 0

theorem comment_le (bs : Bytes) : comment bs ≤ bs.length := by
  cases bs with
  | nil => simp [comment]
  | cons b rest =>
    simp only [comment, List.length_cons]
    split
    · exact Nat.succ_le_succ (Rule.run_le _ rest)
    split
    · cases h : Rule.throughPair? Byte.star Byte.slash rest with
      | none => simp
      | some n => exact Nat.succ_le_succ (Rule.throughPair?_le h).2
    · omega

theorem piece_le (bs : Bytes) : piece bs ≤ bs.length := by
  cases bs with
  | nil => simp [piece]
  | cons b rest =>
    have := comment_le rest
    simp only [piece, List.length_cons]
    split
    · omega
    split <;> omega

end ScriptLexer.Trivia
