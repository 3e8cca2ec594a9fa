/-!
# Lexical patterns

A `Pattern` describes a set of texts. Besides the usual regular operators there is `through stop`,
the texts that end with the first occurrence of `stop` in them: this is what loops read that end as
soon as they can, like those of comments and text blocks.

`Pattern.Matches` says which texts a pattern describes. `Pattern.after` gives the texts that may
follow once a character has been read, and `Pattern.isNullable` tells whether the text may end here;
reading a text character by character with these two decides `Matches`.
-/

namespace JavaOutline

/-- A description of a set of texts. -/
inductive Pattern where
  /-- No text. -/
  | never
  /-- The empty text. -/
  | nothing
  /-- One character of a class. -/
  | char (accepts : Char → Bool)
  /-- A text of `p`, then a text of `q`. -/
  | seq (p q : Pattern)
  /-- A text of `p` or of `q`. -/
  | or (p q : Pattern)
  /-- Any number of texts of `p`. -/
  | star (p : Pattern)
  /-- A text that, put behind `seen`, ends with `stop` for the first time. -/
  | through (stop seen : List Char)

namespace Pattern

/-- This text alone. -/
def word (s : String) : Pattern := s.toList.foldr (fun c p => .seq (.char (· == c)) p) .nothing

/-- One of these characters. -/
def anyOf (s : String) : Pattern := .char fun c => s.toList.contains c

/-- Any character. -/
def anything : Pattern := .char fun _ => true

/-- Any character but these. -/
def noneOf (s : String) : Pattern := .char fun c => !s.toList.contains c

/-- One of the patterns. -/
def oneOf : List Pattern → Pattern
  | [] => .never
  | [p] => p
  | p :: ps => .or p (oneOf ps)

/-- The patterns one after the other. -/
def all : List Pattern → Pattern
  | [] => .nothing
  | [p] => p
  | p :: ps => .seq p (all ps)

/-- A text of `p`, or nothing. -/
def opt (p : Pattern) : Pattern := .or p .nothing

/-- One or more texts of `p`. -/
def plus (p : Pattern) : Pattern := .seq p (.star p)

/-- A text that ends with the first occurrence of `stop`. -/
def upTo (stop : String) : Pattern := .through stop.toList []

/-- The texts that a pattern describes. -/
inductive Matches : Pattern → List Char → Prop where
  | nothing : Matches .nothing []
  | char {accepts : Char → Bool} {c : Char} (h : accepts c = true) : Matches (.char accepts) [c]
  | seq {p q : Pattern} {s t : List Char} (hp : Matches p s) (hq : Matches q t) :
      Matches (.seq p q) (s ++ t)
  | orLeft {p q : Pattern} {s : List Char} (h : Matches p s) : Matches (.or p q) s
  | orRight {p q : Pattern} {s : List Char} (h : Matches q s) : Matches (.or p q) s
  | starNil {p : Pattern} : Matches (.star p) []
  | starCons {p : Pattern} {s t : List Char} (hp : Matches p s) (hq : Matches (.star p) t) :
      Matches (.star p) (s ++ t)
  | through {stop seen s : List Char} (h : stop <:+ seen ++ s)
      (first : ∀ t, t <+: s → t ≠ s → ¬ stop <:+ seen ++ t) : Matches (.through stop seen) s

/-- Does the pattern describe the empty text? -/
def isNullable : Pattern → Bool
  | .never | .char _ => false
  | .nothing | .star _ => true
  | .seq p q => p.isNullable && q.isNullable
  | .or p q => p.isNullable || q.isNullable
  | .through stop seen => stop.isSuffixOf seen

/-- A text of `p`, then a text of `q`, kept short where that is easy. -/
def andThen : Pattern → Pattern → Pattern
  | .never, _ => .never
  | .nothing, q => q
  | p, q => .seq p q

/-- A text of `p` or of `q`, kept short where that is easy. -/
def orElse : Pattern → Pattern → Pattern
  | .never, q => q
  | p, .never => p
  | p, q => .or p q

/-- The texts that may follow the character `c`. Of the text seen before an end mark, only as much
is kept as the end mark is long. -/
def after (c : Char) : Pattern → Pattern
  | .never | .nothing => .never
  | .char accepts => if accepts c then .nothing else .never
  | .seq p q =>
    if p.isNullable then ((p.after c).andThen q).orElse (q.after c) else (p.after c).andThen q
  | .or p q => (p.after c).orElse (q.after c)
  | .star p => (p.after c).andThen (.star p)
  | .through stop seen =>
    if stop.isSuffixOf seen then .never
    else .through stop ((seen ++ [c]).drop (seen.length + 1 - stop.length))

/-- Is it plain that no text can follow? -/
def isDead : Pattern → Bool
  | .never => true
  | _ => false

end Pattern

end JavaOutline
