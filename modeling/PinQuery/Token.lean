import PinQuery.Text.Span

/-!
# Tokens

A query is written in eight keywords, names (bare or between backticks), unsigned numbers,
operators and punctuation.

* `Keyword.ofWord?` finds the keyword that a word spells in any mixture of cases.
* `Kind.describe` is how a message calls a kind of token.
* A `Token` is a kind with the text it was read from and the span of that text.
-/

namespace PinQuery

/-- The reserved words of a query. -/
inductive Keyword
  | select
  | from_
  | where_
  | and
  | or
  | not
  | rsleep
  | rspeed
deriving DecidableEq, Repr

namespace Keyword

/-- Every keyword. -/
def all : List Keyword := [.select, .from_, .where_, .and, .or, .not, .rsleep, .rspeed]

/-- The keyword in capitals. -/
def spelling : Keyword → String
  | .select => "SELECT"
  | .from_ => "FROM"
  | .where_ => "WHERE"
  | .and => "AND"
  | .or => "OR"
  | .not => "NOT"
  | .rsleep => "RSLEEP"
  | .rspeed => "RSPEED"

/-- The keyword that a word spells, whatever the case of its ASCII letters. -/
def ofWord? (word : String) : Option Keyword :=
  all.find? fun keyword => keyword.spelling.toLower == word.toLower

end Keyword

/-- The kinds of token. -/
inductive Kind
  | keyword (word : Keyword)
  | name
  | quotedName
  | number
  | equal
  | doubleEqual
  | bangEqual
  | lessGreater
  | less
  | lessEqual
  | greater
  | greaterEqual
  | plus
  | minus
  | leftParen
  | rightParen
  | comma
  | semicolon
  | endOfQuery
deriving DecidableEq, Repr

/-- How messages call a kind of token: keywords in capitals, symbols in quotes. -/
def Kind.describe : Kind → String
  | .keyword word => word.spelling
  | .name | .quotedName => "identifier"
  | .number => "number"
  | .equal => "'='"
  | .doubleEqual => "'=='"
  | .bangEqual => "'!='"
  | .lessGreater => "'<>'"
  | .less => "'<'"
  | .lessEqual => "'<='"
  | .greater => "'>'"
  | .greaterEqual => "'>='"
  | .plus => "'+'"
  | .minus => "'-'"
  | .leftParen => "'('"
  | .rightParen => "')'"
  | .comma => "','"
  | .semicolon => "';'"
  | .endOfQuery => "end of query"

/-- A kind of token with its text and where that text stands. -/
structure Token where
  kind : Kind
  text : String
  span : Span
deriving DecidableEq, Repr

/-- The token that stands for the end of a text of `offset` bytes. -/
def Token.endAt (offset : Nat) : Token := ⟨.endOfQuery, "", .empty offset⟩

end PinQuery
