import Std.Data.TreeMap.Basic
import JavaOutline.Prediction.Stacks

/-!
# Configurations

A configuration is one of the ways that the parser follows while it looks ahead: the alternative it
began with, the place it has come to, and the places it will return to. Configurations of one
alternative at one place are kept as one, with all their stacks together, unless they depend on
different guards. A `ConfigSet` holds them by `Config.key`.
-/

namespace JavaOutline

/-- A way through the network that is being followed. -/
structure Config where
  /-- Where the way has come to. -/
  place : Place
  /-- The alternative with which it began, counted from 1. -/
  alt : Nat
  /-- The level of the guards on the way that are still to be checked. -/
  level : Option Nat
  /-- The places to which the way may return. -/
  pending : Stacks
  /-- Has the way left the rule in which looking ahead began? -/
  left : Bool
  /-- Has it left that rule for a caller that allows every operator? -/
  outermost : Bool
  deriving DecidableEq, Repr, Inhabited

namespace Config

/-- A number that tells configurations apart by place, alternative and guard. -/
def key (c : Config) : Nat :=
  (c.place.key * 64 + c.alt) * 32 + (match c.level with | none => 0 | some n => n + 1)

/-- The same way one step further on. -/
def move (c : Config) (offset : Nat) : Config := { c with place := c.place.move offset }

/-- Does the guard on the way, if there is one, allow operators of this level? -/
def allows (c : Config) (level : Nat) : Bool :=
  match c.level with
  | none => true
  | some n => level ≤ n

/-- Two ways that differ only in their stacks, as one. -/
def join (wild : Bool) (c d : Config) : Config :=
  { c with
    pending := d.pending.merge wild c.pending
    left := c.left || d.left
    outermost := c.outermost || d.outermost }

end Config

/-- A set of configurations. -/
abbrev ConfigSet := Std.TreeMap Nat Config

namespace ConfigSet

/-- The set with one more configuration. -/
def add (wild : Bool) (s : ConfigSet) (c : Config) : ConfigSet :=
  s.alter c.key fun
    | none => some c
    | some d => some (d.join wild c)

/-- The alternatives of the configurations, without repetition. -/
def alts (s : ConfigSet) : List Nat :=
  s.foldl (fun as _ c => if as.contains c.alt then as else c.alt :: as) []

/-- The alternative of all configurations, if there is only one. -/
def uniqueAlt? (s : ConfigSet) : Option Nat :=
  match s.alts with
  | [a] => some a
  | _ => none

end ConfigSet

/-- The least number of a list. -/
def least? : List Nat → Option Nat
  | [] => none
  | n :: ns => some (ns.foldl min n)

end JavaOutline
