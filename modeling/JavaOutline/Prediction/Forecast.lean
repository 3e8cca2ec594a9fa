import JavaOutline.Prediction.Closure

/-!
# Choosing an alternative by looking ahead

`forecast` chooses between the alternatives of a decision. It first looks ahead as if nothing were
known of the callers of the rule, which usually is enough. If the alternatives that remain cannot be
told apart that way, it looks ahead once more from the beginning with the callers that the parser
knows. If then the remaining alternatives go on in exactly the same ways, the input is ambiguous and
the first of them is chosen.

If no alternative can go on with the next token, an alternative that has come to the end of the rule
is still chosen: the error is then found by the caller. Otherwise the decision fails at that token.
-/

namespace JavaOutline

/-- What looking ahead has shown. -/
inductive Verdict where
  /-- This alternative is to be taken, counted from 1. -/
  | take (alt : Nat)
  /-- No alternative goes on with the token at this position. -/
  | stuck (pos : Nat)
  deriving DecidableEq, Repr, Inhabited

/-- The outcome of looking ahead. -/
structure Forecast where
  verdict : Verdict
  /-- The position of the last token that was looked at. -/
  seen : Nat
  /-- Was some way too long to be followed? -/
  overrun : Bool

/-- The kind of the token at a position; the end of the file comes after the last token. -/
def kindAt (kinds : Array Kind) (i : Nat) : Kind := kinds.getD i .endOfFile

namespace ConfigSet

/-- Is the configuration at the end of a rule? -/
def finished (N : Network) (c : Config) : Bool := N.node c.place == .finish

/-- The configurations right behind the next token. -/
def moved (L : Outlook) (s : ConfigSet) (k : Kind) : ConfigSet :=
  s.foldl (fun t _ c =>
    match L.net.node c.place with
    | .take ks next => if ks.contains k then add (!L.full) t (c.move next) else t
    | _ => t) ∅

/-- The configurations that have ended in front of the next token, where that counts. -/
def ended (L : Outlook) (s : ConfigSet) (k : Kind) : List Config :=
  if L.full || k == .endOfFile then s.values.filter (finished L.net) else []

/-- The configurations behind a token, followed up to the next one. If `unique`, those of a single
alternative are left where they are. -/
def followed (L : Outlook) (limit : Nat) (unique : Bool) (s : ConfigSet) : Closure :=
  if unique && (uniqueAlt? s).isSome then { Closure.empty with configs := s }
  else s.foldl (fun t _ c => Closure.follow { L with guards := false } limit c (some 0) t) .empty

/-- The configurations that the next token leads to, together with whether some way was too long.
`none` if there is no such configuration. -/
def step (L : Outlook) (limit : Nat) (s : ConfigSet) (k : Kind) : Option (ConfigSet × Bool) :=
  let wild := !L.full
  let ended := ended L s k
  let closure := followed L limit (ended.isEmpty && k != .endOfFile) (moved L s k)
  let reached :=
    if k == .endOfFile then closure.configs.filter fun _ c => finished L.net c
    else closure.configs
  let reached :=
    if !ended.isEmpty && (wild || !reached.any fun _ c => finished L.net c) then
      ended.foldl (add wild) reached
    else reached
  if reached.isEmpty then none else some (reached, closure.overrun)

/-- The configurations place by place. -/
def byPlace (s : ConfigSet) : List (List Config) :=
  s.values.splitBy fun c d => c.place == d.place

/-- The alternatives of configurations at one place, one list for each set of stacks. -/
def byStacks (cs : List Config) : List (List Nat) :=
  (cs.foldl (fun (groups : List (Stacks × List Nat)) c =>
    if groups.any fun g => g.1 == c.pending then
      groups.map fun g => if g.1 == c.pending then (g.1, c.alt :: g.2) else g
    else (c.pending, [c.alt]) :: groups) []).map (·.2.eraseDups)

/-- The alternatives that share a place and all stacks there. -/
def rivals (s : ConfigSet) : List (List Nat) := (byPlace s).flatMap byStacks

/-- Can the alternatives not be told apart without knowing the callers? So it is if all have come to
their end, or if some share a place and all stacks there while no place belongs to one alternative
alone. -/
def conflicts (N : Network) (s : ConfigSet) : Bool :=
  s.all (fun _ c => finished N c) ||
    ((rivals s).any (fun as => as.length > 1) &&
      !(byPlace s).any fun cs => (cs.map (·.alt)).eraseDups.length == 1)

/-- What is left to choose from if, wherever two alternatives remain, the later one is dropped:
the alternative, if it is the same everywhere. -/
def resolved? (s : ConfigSet) : Option Nat :=
  match ((rivals s).filterMap least?).eraseDups with
  | [a] => some a
  | _ => none

/-- The guard on which an alternative depends: `none` if one of its ways is free, otherwise the
highest level that one of them asks for. -/
def guardOf (s : ConfigSet) (alt : Nat) : Option Nat :=
  let levels := (s.values.filter fun c => c.alt == alt).map (·.level)
  if levels.contains none then none else some ((levels.filterMap id).foldl max 0)

/-- Those of the alternatives whose guards allow operators of this level, or `none` if there are no
guards at all. -/
def guarded? (s : ConfigSet) (alts : List Nat) (level : Nat) : Option (List Nat) :=
  let guards := alts.map fun a => (a, guardOf s a)
  if guards.all fun g => g.2.isNone then none
  else some ((guards.filter fun g => match g.2 with
    | none => true
    | some n => level ≤ n).map (·.1))

/-- The first alternative that has come to the end of the rule, preferably one whose guards allow
operators of this level. -/
def endedAlt? (N : Network) (s : ConfigSet) (level : Nat) : Option Nat :=
  let ended := s.values.filter fun c => c.left || (finished N c && c.pending.hasBottom)
  let good := ended.filter (·.allows level)
  match least? (good.map (·.alt)) with
  | some a => some a
  | none => least? ((ended.filter fun c => !c.allows level).map (·.alt))

/-- For the decision whether to apply one more operator: ways that apply one that is not allowed
are dropped, and so are ways that leave the rule only to come to the same place as one that applies
it, unless they leave it for a caller that allows every operator. -/
def preferOperators (s : ConfigSet) (level : Nat) : ConfigSet :=
  let inside : ConfigSet := s.foldl (fun t _ c =>
    if c.alt == 1 && c.allows level then add true t { c with level := none } else t) ∅
  s.foldl (fun t _ c =>
    if c.alt == 1 then t
    else if !c.outermost &&
        inside.any (fun _ d => d.place == c.place && d.pending == c.pending) then t
    else add true t c) inside

end ConfigSet

open ConfigSet

/-- The configurations with which looking ahead begins at a decision. -/
def firstConfigs (L : Outlook) (limit : Nat) (p : Place) (pending : Stacks) : Closure :=
  match L.net.node p with
  | .fork nexts => (nexts.zipIdx 1).foldl (fun s (next, alt) =>
      Closure.follow L limit ⟨p.move next, alt, none, pending, false, false⟩ (some 0)
        { s with visited := ∅ }) .empty
  | _ => .empty

/-- Looks ahead from `pos` on with known callers. The first argument bounds the number of tokens. -/
def forecastFull (L : Outlook) (limit : Nat) (kinds : Array Kind) :
    Nat → Nat → ConfigSet → Bool → Forecast
  | 0, pos, _, _ => ⟨.stuck pos, pos, true⟩
  | n + 1, pos, configs, overrun =>
    let k := kindAt kinds pos
    match step L limit configs k with
    | none =>
      match endedAlt? L.net configs L.level with
      | some a => ⟨.take a, pos, overrun⟩
      | none => ⟨.stuck pos, pos, overrun⟩
    | some (reached, long) =>
      match uniqueAlt? reached with
      | some a => ⟨.take a, pos, overrun || long⟩
      | none =>
        match resolved? reached with
        | some a => ⟨.take a, pos, overrun || long⟩
        | none =>
          forecastFull L limit kinds n (if k == .endOfFile then pos else pos + 1) reached
            (overrun || long)

/-- Looks ahead from `pos` on without knowing the callers; `full` looks ahead once more from
`start` on with known callers. The first argument bounds the number of tokens. -/
def forecastLocal (L : Outlook) (limit : Nat) (kinds : Array Kind) (start : Nat)
    (full : Bool → Forecast) : Nat → Nat → ConfigSet → Bool → Forecast
  | 0, pos, _, _ => ⟨.stuck pos, pos, true⟩
  | n + 1, pos, configs, overrun =>
    let k := kindAt kinds pos
    match step L limit configs k with
    | none =>
      match endedAlt? L.net configs L.level with
      | some a => ⟨.take a, pos, overrun⟩
      | none => ⟨.stuck pos, pos, overrun⟩
    | some (reached, long) =>
      let overrun := overrun || long
      match uniqueAlt? reached with
      | some a =>
        match guarded? reached [a] L.level with
        | some [] => ⟨.stuck start, pos, overrun⟩
        | _ => ⟨.take a, pos, overrun⟩
      | none =>
        if conflicts L.net reached then
          match guarded? reached (rivals reached).flatten.eraseDups L.level with
          | some [a] => ⟨.take a, pos, overrun⟩
          | _ =>
            let f := full overrun
            { f with seen := max f.seen pos }
        else
          forecastLocal L limit kinds start full n (if k == .endOfFile then pos else pos + 1)
            reached overrun

/-- Chooses between the alternatives of the decision at `p` with the tokens from `pos` on. `callers`
are the places to which the rule and its callers will return, and `level` is the least level of the
operators that are allowed in the rule. -/
def forecast (N : Network) (kinds : Array Kind) (callers : List Place) (level : Nat) (p : Place)
    (pos : Nat) : Forecast :=
  let isLoop := N.operatorLoop? p.rule == some p.offset
  let unknown : Outlook := ⟨N, false, true, level, if isLoop then some p.rule else none⟩
  let known : Outlook := ⟨N, true, true, level, none⟩
  let tokens := kinds.size + 2 - pos
  let limit := wayLimit callers.length tokens
  let full (overrun : Bool) : Forecast :=
    let first := firstConfigs known limit p (.ofList callers)
    forecastFull known limit kinds tokens pos first.configs (overrun || first.overrun)
  let first := firstConfigs unknown limit p .bottom
  let configs := if isLoop then preferOperators first.configs level else first.configs
  forecastLocal unknown limit kinds pos full tokens pos configs first.overrun

end JavaOutline
