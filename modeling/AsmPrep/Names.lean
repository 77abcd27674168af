/-
Interned names.

A pool keeps every text it was given once, in the order of arrival, and hands out the
text's place as its handle.  Handles carry the pool they came from, so that comparing
two of them is comparing two pairs of numbers and never two texts; that this comes to
the same is what makes the handle a name for its text.
-/
import AsmPrep.Text.Basic

namespace AsmPrep.Names

/-- A name of a text: the pool that gave it out, and the text's place there. -/
structure Handle where
  pool : Nat
  slot : Nat
  deriving DecidableEq, Repr

structure Pool where
  /-- Tells one pool from another. -/
  ident : Nat := 0
  texts : List String := []

namespace Pool

def size (p : Pool) : Nat := p.texts.length

def isEmpty (p : Pool) : Bool := p.texts.isEmpty

/-- The handle of a text interned before. -/
def get? (p : Pool) (text : String) : Option Handle :=
  (p.texts.findIdx? (· == text)).map fun slot => ⟨p.ident, slot⟩

/-- The handle of a text, which is taken into the pool on first use. -/
def intern (p : Pool) (text : String) : Handle × Pool :=
  match p.get? text with
  | some found => (found, p)
  | none => (⟨p.ident, p.texts.length⟩, { p with texts := p.texts ++ [text] })

/-- Interns a text where there is one. -/
def intern? (p : Pool) : Option String → Option Handle × Pool
  | none => (none, p)
  | some text => let made := p.intern text; (some made.1, made.2)

/-- Takes a text into the pool. -/
def insert (p : Pool) (text : String) : Pool := (p.intern text).2

/-- Takes texts into the pool, in order. -/
def insertAll (p : Pool) (texts : List String) : Pool := texts.foldl insert p

/-- The text a handle stands for. -/
def text? (p : Pool) (h : Handle) : Option String :=
  if h.pool = p.ident then p.texts[h.slot]? else none

/-- Whether the text has been interned. -/
def contains (p : Pool) (text : String) : Bool := p.texts.contains text

/-- The pool as a line of a log shows it, under the given label. -/
def describe (p : Pool) (label : String) : String :=
  label ++ " \x7b len: " ++ toString p.size ++ " \x7d"

end Pool

end AsmPrep.Names
