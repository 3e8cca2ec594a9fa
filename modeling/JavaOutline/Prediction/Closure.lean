import JavaOutline.Network.Look
import JavaOutline.Prediction.Config

/-!
# Following a way up to the next token

`Closure.follow` follows a configuration through the network until each of its branches has come to
a node that takes a token. What happens at the end of a rule depends on what is known of the
callers. With a return place on the stack the way goes on there. With an empty stack it goes on
behind every call of the rule if the callers are unknown, and ends if they are known, because then
the rule is the one with which the parse began.

Guards are collected, or checked at once if the callers are known, only as long as the way is in the
very call of the rule in which looking ahead began; nothing is known of the levels of other calls.
-/

namespace JavaOutline

/-- The circumstances in which the parser looks ahead. -/
structure Outlook where
  net : Network
  /-- Are the callers of the rule known? -/
  full : Bool
  /-- Are guards looked at? They count before the first token only. -/
  guards : Bool
  /-- The least level of the operators that are allowed in the rule. -/
  level : Nat
  /-- The rule, if the decision is whether to apply one more operator. -/
  loop : Option Rule

/-- The configurations found so far. -/
structure Closure where
  configs : ConfigSet
  /-- The ways that have been followed out of the rule into unknown callers. -/
  visited : Std.TreeMap Nat Unit
  /-- Was some way too long to be followed? -/
  overrun : Bool

namespace Closure

/-- Nothing found yet. -/
def empty : Closure := ⟨∅, ∅, false⟩

/-- One more configuration found. -/
def add (L : Outlook) (s : Closure) (c : Config) : Closure :=
  { s with configs := s.configs.add (!L.full) c }

/-- Does a node lead to the node `goal` of its rule by forks with one way on, at most `n` of
them? -/
def leadsTo (N : Network) (goal : Place) : Nat → Place → Bool
  | 0, p => p == goal
  | n + 1, p => p == goal ||
    match N.node p with
    | .fork [next] => leadsTo N goal n (p.move next)
    | _ => false

/-- Is the way at the fork that applies one more operator, inside an operand of the same rule, with
every return leading to that very fork? Then to leave the operand first and to apply the operator
outside it comes to the same, and only that is followed. -/
def operandOnly (N : Network) (c : Config) : Bool :=
  N.operatorLoop? c.place.rule == some c.place.offset &&
    !c.pending.hasBottom && !c.pending.tops.isEmpty &&
    c.pending.tops.all fun (ret, _) => ret.rule == c.place.rule && leadsTo N c.place 3 ret

/-- Follows a configuration up to the next token, and `leave` goes on from the places behind the
calls of a rule whose callers are unknown. The first argument bounds the length of the ways. `depth`
is the number of rules that the way has entered and not left since looking ahead began, or `none`
once it has left the rule in which that was. -/
def followWith (L : Outlook) (leave : Config → Closure → Closure) :
    Nat → Config → Option Nat → Closure → Closure
  | 0, _, _, s => { s with overrun := true }
  | n + 1, c, depth, s =>
    match L.net.node c.place with
    | .take _ _ => s.add L c
    | .call r _ next =>
      let c' := { c with place := .start r, pending := c.pending.push (c.place.move next) }
      followWith L leave n c' (depth.map (· + 1)) s
    | .guard level next =>
      if L.guards && depth == some 0 then
        if L.full then
          if L.level ≤ level then followWith L leave n (c.move next) depth s else s
        else
          let level' := match c.level with
            | none => level
            | some l => min l level
          followWith L leave n { c.move next with level := some level' } depth s
      else followWith L leave n (c.move next) depth s
    | .fork nexts =>
      let nexts := if operandOnly L.net c then nexts.drop 1 else nexts
      nexts.foldl (fun s next => followWith L leave n (c.move next) depth s) s
    | .finish =>
      match c.pending with
      | .bottom =>
        if L.full then s.add L c
        else
          match L.net.returns c.place.rule with
          | [] => s.add L c
          | rets => rets.foldl (fun s ret =>
              let outermost := c.outermost || (L.loop == some c.place.rule && ret.level == 0)
              let c' := { c with place := ret.place, left := true, outermost }
              let k := 2 * c'.key + outermost.toNat
              if s.visited.contains k then s
              else leave c' { s with visited := s.visited.insert k () }) s
      | pending =>
        let s := if pending.hasBottom then s.add L { c with pending := .bottom } else s
        let depth' := match depth with
          | some (d + 1) => some d
          | _ => none
        pending.tops.foldl (fun s (ret, below) =>
          followWith L leave n { c with place := ret, pending := below } depth' s) s

/-- Follows a configuration up to the next token. The last number bounds how often a way goes on in
an unknown caller, `limit` the length of the ways in between. -/
def followOut (L : Outlook) (limit : Nat) : Nat → Config → Option Nat → Closure → Closure
  | 0 => followWith L (fun _ s => { s with overrun := true }) limit
  | m + 1 => followWith L (fun c => followOut L limit m c none) limit

/-- Follows a configuration up to the next token, with one bound for both. -/
def follow (L : Outlook) (limit : Nat) : Config → Option Nat → Closure → Closure :=
  followOut L limit limit

end Closure

/-- A bound for the ways that are followed without a token, for a rule with this many callers and with
this many tokens to look at. -/
def wayLimit (callers tokens : Nat) : Nat := 10000 * (callers + 1000 * (tokens + 1))

end JavaOutline
