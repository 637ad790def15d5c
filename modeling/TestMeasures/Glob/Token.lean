/-!
# Glob patterns

A glob is a list of tokens. `?` and `*` stand for bytes other than the separator, `**` for any number of
path components where it stands as a component of its own, `[…]` for one byte of a set, and `{…,…}` for
one of several globs. A backslash takes the next character literally.
-/

namespace TestMeasures.Glob

/-- One part of a glob. -/
inductive Token where
  /-- Exactly this character. -/
  | literal (c : Char)
  /-- One byte that is no separator: `?`. -/
  | any
  /-- Any bytes without a separator: `*`. -/
  | star
  /-- Any number of components, and the separator behind them: `**` at the start. -/
  | anyPrefix
  /-- A separator and anything behind it: `**` at the end. -/
  | anySuffix
  /-- A separator, any number of components between, and a separator: `**` in between. -/
  | anyBetween
  /-- One byte in the ranges, or one outside of them. -/
  | oneOf (negated : Bool) (ranges : List (Char × Char))
  /-- One of several globs. -/
  | choice (alternatives : List (List Token))
deriving Repr, Inhabited

/-- Why a text is no glob. -/
inductive Fault where
  | unclosedSet
  | invalidRange (low high : Char)
  | unopenedGroup
  | unclosedGroup
  | danglingEscape
deriving Repr, DecidableEq, Inhabited

/-- The message of a text that is no glob. -/
def Fault.message : Fault → String
  | .unclosedSet => "unclosed character class; missing ']'"
  | .invalidRange low high =>
    "invalid range; '" ++ String.singleton low ++ "' > '" ++ String.singleton high ++ "'"
  | .unopenedGroup =>
    "unopened alternate group; missing '\x7b' (maybe escape '\x7d' with '[\x7d]'?)"
  | .unclosedGroup =>
    "unclosed alternate group; missing '\x7d' (maybe escape '\x7b' with '[\x7b]'?)"
  | .danglingEscape => "dangling '\\'"

/-- The separator of path components. -/
def separator : Char := '/'

/-- A set being read. Ranges are kept last one first. -/
structure SetDraft where
  negated : Bool
  ranges : List (Char × Char)
  /-- No character of the set has been read. -/
  first : Bool
  /-- A hyphen behind a character waits for the end of the range. -/
  pending : Bool

/-- What the next character is read as. -/
inductive Mode where
  | plain
  | escaped
  /-- The first character of a set, which may negate it. -/
  | setStart
  | inSet (draft : SetDraft)

/-- A glob being read: the tokens of the branch at hand, last one first, and for every open group the
tokens before it and its finished branches, both last one first. -/
structure Draft where
  tokens : List Token
  groups : List (List Token × List (List Token))

namespace Draft

/-- Appends a token to the branch at hand. -/
def push (draft : Draft) (token : Token) : Draft :=
  { draft with tokens := token :: draft.tokens }

/-- Whether a group is open. -/
def inGroup (draft : Draft) : Bool :=
  !draft.groups.isEmpty

/-- Opens a group. -/
def openGroup (draft : Draft) : Draft :=
  ⟨[], (draft.tokens, []) :: draft.groups⟩

/-- Ends a branch of the open group; outside of groups a comma is a character like any other. -/
def comma (draft : Draft) : Draft :=
  match draft.groups with
  | [] => draft.push (.literal ',')
  | (before, branches) :: outer => ⟨[], (before, draft.tokens.reverse :: branches) :: outer⟩

/-- Closes the open group. -/
def closeGroup (draft : Draft) : Except Fault Draft :=
  match draft.groups with
  | [] => .error .unopenedGroup
  | (before, branches) :: outer =>
    .ok ⟨.choice (draft.tokens.reverse :: branches).reverse :: before, outer⟩

/-- Puts `**` in place of the separator before it. A `**` behind a leading or trailing one adds
nothing. -/
def pushRecursive (draft : Draft) (token : Token) : Draft :=
  match draft.tokens with
  | [] => draft.push token
  | .anyPrefix :: _ => draft
  | .anySuffix :: _ => draft
  | _ :: before => { draft with tokens := token :: before }

/-- Two stars that are no component of their own mean the same as one. -/
def pushStars (draft : Draft) : Draft :=
  (draft.push .star).push .star

end Draft

namespace SetDraft

/-- Ends a pending range with a character. -/
def closeRange (draft : SetDraft) (c : Char) : Except Fault SetDraft :=
  match draft.ranges with
  | [] => .ok { draft with first := false, pending := false }
  | (low, _) :: before =>
    if c < low then .error (.invalidRange low c)
    else .ok { draft with ranges := (low, c) :: before, first := false, pending := false }

/-- Adds a character by itself. -/
def push (draft : SetDraft) (c : Char) : SetDraft :=
  { draft with ranges := (c, c) :: draft.ranges, first := false }

/-- The token of a finished set. A hyphen that ends no range is a member. -/
def finish (draft : SetDraft) : Token :=
  let ranges := if draft.pending then ('-', '-') :: draft.ranges else draft.ranges
  .oneOf draft.negated ranges.reverse

/-- Reads one character of a set that does not end it. -/
def read (draft : SetDraft) (c : Char) : Except Fault SetDraft :=
  if draft.pending then draft.closeRange c
  else if c = '-' ∧ ¬draft.first then .ok { draft with pending := true }
  else .ok (draft.push c)

end SetDraft

/-- Reads characters in a mode behind a character. -/
def parseFrom : Mode → Option Char → Draft → List Char → Except Fault (List Token)
  | .plain, _, draft, [] =>
    if draft.inGroup then .error .unclosedGroup else .ok draft.tokens.reverse
  | .escaped, _, _, [] => .error .danglingEscape
  | .setStart, _, _, [] => .error .unclosedSet
  | .inSet _, _, _, [] => .error .unclosedSet
  | .escaped, _, draft, c :: rest => parseFrom .plain (some c) (draft.push (.literal c)) rest
  | .setStart, _, draft, c :: rest =>
    if c = '!' ∨ c = '^' then parseFrom (.inSet ⟨true, [], true, false⟩) (some c) draft rest
    else parseFrom (.inSet ⟨false, [(c, c)], false, false⟩) (some c) draft rest
  | .inSet set, _, draft, c :: rest =>
    if c = ']' ∧ ¬set.first then parseFrom .plain (some c) (draft.push set.finish) rest
    else
      match set.read c with
      | .error fault => .error fault
      | .ok set => parseFrom (.inSet set) (some c) draft rest
  | .plain, before, draft, c :: rest =>
    if c = '?' then parseFrom .plain (some c) (draft.push .any) rest
    else if c = '[' then parseFrom .setStart (some c) draft rest
    else if c = '{' then parseFrom .plain (some c) draft.openGroup rest
    else if c = '}' then
      match draft.closeGroup with
      | .error fault => .error fault
      | .ok draft => parseFrom .plain (some c) draft rest
    else if c = ',' then parseFrom .plain (some c) draft.comma rest
    else if c = '\\' then parseFrom .escaped (some c) draft rest
    else if c = '*' then
      match rest with
      | [] => parseFrom .plain (some c) (draft.push .star) []
      | d :: more =>
        if d = '*' then
          if draft.tokens.isEmpty then
            match more with
            | [] => parseFrom .plain (some d) (draft.push .anyPrefix) []
            | e :: others =>
              if e = separator then parseFrom .plain (some e) (draft.push .anyPrefix) others
              else parseFrom .plain (some d) draft.pushStars (e :: others)
          else if before ≠ some separator ∧
              (¬draft.inGroup ∨ (before ≠ some ',' ∧ before ≠ some '{')) then
            parseFrom .plain (some d) draft.pushStars more
          else
            match more with
            | [] => parseFrom .plain (some d) (draft.pushRecursive .anySuffix) []
            | e :: others =>
              if e = separator then
                parseFrom .plain (some e) (draft.pushRecursive .anyBetween) others
              else if draft.inGroup ∧ (e = ',' ∨ e = '}') then
                parseFrom .plain (some d) (draft.pushRecursive .anySuffix) (e :: others)
              else parseFrom .plain (some d) draft.pushStars (e :: others)
        else parseFrom .plain (some c) (draft.push .star) (d :: more)
    else parseFrom .plain (some c) (draft.push (.literal c)) rest

/-- Reads a glob. -/
def parse (text : String) : Except Fault (List Token) :=
  parseFrom .plain none ⟨[], []⟩ text.toList

end TestMeasures.Glob
