/-
# Terminals, channels and tokens

A terminal is what a grammar sees of a token.  Besides the kinds of tokens there are the end of the
input and the empty marker: in a set of first terminals the marker says that nothing may stand
there, and as the key of an action it says that the action needs no lookahead.

The order of terminals is the order in which sets of them are listed: kinds by name, then the end
of the input, then the marker.
-/
import Lode.Span

namespace Lode

/-- A terminal symbol of a grammar. -/
inductive Terminal where
  /-- A kind of token, by name. -/
  | kind (name : String)
  /-- The end of the input. -/
  | eof
  /-- Nothing at all. -/
  | empty
deriving DecidableEq, Repr, Ord

namespace Terminal

/-- The plain name of a terminal. -/
def text : Terminal → String
  | kind name => name
  | eof => "$eof"
  | empty => "$empty"

/-- A terminal as diagnostics name it. -/
def describe : Terminal → String
  | kind name => "`" ++ name ++ "`"
  | eof => "end of input"
  | empty => "nothing"

end Terminal

/-- A part of the token stream.  Hidden channels carry blanks and comments; every reader sees the
channel `all`, on which only the end of the input is sent. -/
inductive Channel where
  | default
  | hidden (name : String)
  | all
deriving DecidableEq, Repr

/-- The name of a channel. -/
def Channel.text : Channel → String
  | default => "default"
  | hidden name => name
  | all => "all"

/-- A piece of the input with its place. -/
structure Token where
  kind : Terminal
  text : String
  channel : Channel
  span : Span
deriving DecidableEq, Repr

end Lode
