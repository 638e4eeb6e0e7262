/-
The programs that are read are those of the grammar.

* `Program.ofTokens_sound` — what is read without an error has a derivation.
* `Program.ofTokens_complete` — what has a derivation is read without an error.
* `exactly_the_grammar` — so a program is read without an error exactly when it has a
  derivation, and what is read are the trees of the derivation.
* `Grammar.Program.unique` — there is one derivation at most, up to the trees that it makes.
-/
import LoxLang.Program
import LoxLang.Proofs.Reader.StatementCompleteness

namespace LoxLang

open Reader

/-- Tokens of which the last one ends the source are read from the first one on. -/
theorem Cursor.of_endsOnce {tokens : List Token} (h : EndsOnce tokens) :
    ∃ c, Cursor.ofTokens? tokens = some c ∧ (Reading.start c).rest = tokens := by
  cases tokens with
  | nil =>
    obtain ⟨before, last, heq, -⟩ := h
    simp at heq
  | cons t ts => exact ⟨⟨none, t, ts, 0⟩, rfl, rfl⟩

/-- What is read without an error is a program. -/
theorem Program.ofTokens_sound {tokens : List Token} (h : EndsOnce tokens)
    (hok : (Program.ofTokens tokens).errors = []) :
    Grammar.Program tokens (Program.ofTokens tokens).statements := by
  obtain ⟨c, hc, hrest⟩ := Cursor.of_endsOnce h
  have hs : EndsOnce (Reading.start c).rest := by rwa [hrest]
  have hhonest := program_honest hs
  rw [Program.ofTokens, hc] at hok ⊢
  dsimp only at hok ⊢
  cases hread : program (.start c) with
  | ok es s =>
    rw [hread] at hok hhonest
    obtain ⟨ts, hts, -, hes⟩ := hhonest
    obtain ⟨hes, hend⟩ := hes hok
    -- Nothing comes after the token that ends the source.
    have hlast : s.rest = [s.cursor.current] := by
      rw [Reading.rest, (hts.endsOnce hs).tail_eq_nil_iff.mp hend]
    rw [hts.rest, hlast] at hrest
    rw [← hrest]
    exact .intro hes hend
  | failed s =>
    rw [hread] at hok hhonest
    exact absurd hok hhonest.2
  | stuck =>
    rw [hread] at hhonest
    exact hhonest.elim

/-- A program is read to its end: its trees are found, and nothing else. -/
theorem Program.ofTokens_eq {tokens : List Token} {statements : List Node}
    (h : EndsOnce tokens) (hprogram : Grammar.Program tokens statements) :
    Program.ofTokens tokens = ⟨statements, [], []⟩ := by
  obtain ⟨c, hc, hrest⟩ := Cursor.of_endsOnce h
  have hs : EndsOnce (Reading.start c).rest := by rwa [hrest]
  cases hprogram with
  | @intro ts es t hes hend =>
    have hsees : (Reading.start c).Sees ts t := ⟨hs, [], hrest⟩
    have hread := program_of_derived hes hsees rfl hend
    rw [Program.ofTokens, hc]
    dsimp only
    rw [hread]
    dsimp only
    rw [ofReading, Reading.skip_errors, Reading.skip_heard]
    rfl

/-- A program is read without an error, and its trees are found. -/
theorem Program.ofTokens_complete {tokens : List Token} {statements : List Node}
    (h : EndsOnce tokens) (hprogram : Grammar.Program tokens statements) :
    (Program.ofTokens tokens).errors = [] ∧
      (Program.ofTokens tokens).statements = statements := by
  rw [Program.ofTokens_eq h hprogram]
  exact ⟨rfl, rfl⟩

/-- Where there is no error, a listener is told of none. -/
theorem Program.heard_of_ok {source : String} (hok : (Program.ofSource source).ok) :
    (Program.ofSource source).heard = [] := by
  have hends := tokensOf_endsOnce source
  rw [Program.ofSource, ofTokens_eq hends (ofTokens_sound hends (List.isEmpty_iff.mp hok))]

/-- Of tokens that are a program there is one derivation: they do not have two different lists
of trees. -/
theorem Grammar.Program.unique {tokens : List Token} {es fs : List Node} (h : EndsOnce tokens)
    (hes : Grammar.Program tokens es) (hfs : Grammar.Program tokens fs) : es = fs := by
  rw [← (Program.ofTokens_complete h hes).2, (Program.ofTokens_complete h hfs).2]

/-- Of tokens that end with the end of the source, just the programs are read without an error,
and what is read are their trees. -/
theorem exactly_the_grammar {tokens : List Token} (h : EndsOnce tokens) (statements : List Node) :
    ((Program.ofTokens tokens).errors = [] ∧ (Program.ofTokens tokens).statements = statements) ↔
      Grammar.Program tokens statements := by
  constructor
  · rintro ⟨hok, rfl⟩
    exact Program.ofTokens_sound h hok
  · exact Program.ofTokens_complete h

/-- What needs no operator is an expression. -/
theorem Grammar.Expression.ofPrimary {ts : List Token} {e : Node} (h : Expression .primary ts e) :
    Expression .expression ts e :=
  .disjunction (.tighter (.tighter (.tighter (.tighter (.tighter (.tighter
    (.operand (.called (.uncalled h)))))))))

/-- A name is an expression. -/
theorem Grammar.Expression.ofName {t : Token} (ht : t.kind = .identifier) :
    Expression .expression [t] (.reference t.mark) :=
  .ofPrimary (.reference ht)

/-- A token of a kind, with its text, in a column of the first line. -/
def tokenIn (column : Nat) (kind : Kind) (lexeme : String) : Token :=
  Token.ofLexeme kind lexeme.toList ⟨1, column⟩

/-- In `if (a) if (b) c; else d;` the `else` belongs to the second `if`. -/
theorem exactly_the_grammar_of_two_ifs :
    let a := tokenIn 5 .identifier "a"
    let b := tokenIn 12 .identifier "b"
    let c := tokenIn 15 .identifier "c"
    let d := tokenIn 23 .identifier "d"
    let tokens := [tokenIn 1 .ifWord "if", tokenIn 4 .leftParen "(", a, tokenIn 6 .rightParen ")",
      tokenIn 8 .ifWord "if", tokenIn 11 .leftParen "(", b, tokenIn 13 .rightParen ")",
      c, tokenIn 16 .semicolon ";", tokenIn 18 .elseWord "else", d, tokenIn 24 .semicolon ";",
      tokenIn 25 .endOfFile ""]
    EndsOnce tokens ∧ (Program.ofTokens tokens).errors = [] ∧
      (Program.ofTokens tokens).statements = [.branch (.reference a.mark)
        (.branch (.reference b.mark) (.evaluate (.reference c.mark))
          (.evaluate (.reference d.mark))) .missing] := by
  intro a b c d tokens
  have hends : EndsOnce tokens := ⟨tokens.dropLast, tokens.getLast (by simp [tokens]), rfl, rfl,
    by decide⟩
  have hc : Grammar.Statement 0 (.statement false) ([c] ++ [tokenIn 16 .semicolon ";"])
      (.evaluate (.reference c.mark)) := .expression (.ofName rfl) rfl
  have hd : Grammar.Statement 0 (.statement false) ([d] ++ [tokenIn 24 .semicolon ";"])
      (.evaluate (.reference d.mark)) := .expression (.ofName rfl) rfl
  have hinner : Grammar.Statement 0 (.statement false)
      (tokenIn 8 .ifWord "if" :: tokenIn 11 .leftParen "(" :: [b] ++ tokenIn 13 .rightParen ")" ::
        ([c] ++ [tokenIn 16 .semicolon ";"]) ++ tokenIn 18 .elseWord "else" ::
          ([d] ++ [tokenIn 24 .semicolon ";"]))
      (.branch (.reference b.mark) (.evaluate (.reference c.mark))
        (.evaluate (.reference d.mark))) :=
    .ifElse rfl rfl (.ofName rfl) rfl hc rfl hd
  have houter : Grammar.Statement 0 .declaration
      (tokenIn 1 .ifWord "if" :: tokenIn 4 .leftParen "(" :: [a] ++ tokenIn 6 .rightParen ")" :: _)
      (.branch (.reference a.mark) _ .missing) :=
    .statement (.ifThen rfl rfl (.ofName rfl) rfl hinner)
  have hprogram : Grammar.Program tokens _ := .intro (.moreDeclarations houter .noDeclaration) rfl
  exact ⟨hends, (exactly_the_grammar hends _).mpr hprogram⟩

end LoxLang
