import TestMeasures.Glob.Match
import TestMeasures.Proofs.TextBytes

/-!
# Globs behind a literal front

A glob is read from its start, and two stars mean one thing there and another behind a separator. What a glob
becomes behind plain characters and a separator is `joinTokens`: reading the whole comes to the tokens of the glob
by itself, joined to the front (`parse_join`). Reading goes step by step (`parse_step`), and a step does the same
behind a front (`step_behind`). The joined tokens match the front, a separator, and what the glob matches by
itself (`accepts_join`).
-/

namespace TestMeasures.Glob

/-- Where the reading of a glob stands. -/
structure Point where
  mode : Mode
  before : Option Char
  draft : Draft
  rest : List Char

/-- Reads on from a point. -/
def Point.parse (point : Point) : Except Fault (List Token) :=
  parseFrom point.mode point.before point.draft point.rest

/-- What a character other than a star does outside of sets. -/
def Draft.sign (draft : Draft) (c : Char) : Except Fault (Mode × Draft) :=
  if c = '?' then .ok (.plain, draft.push .any)
  else if c = '[' then .ok (.setStart, draft)
  else if c = '{' then .ok (.plain, draft.openGroup)
  else if c = '}' then draft.closeGroup.map (.plain, ·)
  else if c = ',' then .ok (.plain, draft.comma)
  else if c = '\\' then .ok (.escaped, draft)
  else .ok (.plain, draft.push (.literal c))

/-- Two stars read as one star each. -/
def Point.afterStars (draft : Draft) (rest : List Char) : Point :=
  ⟨.plain, some '*', draft.pushStars, rest⟩

/-- What two stars do. They are a component of their own at the start of a branch and behind a separator, where
the branch or the component ends with them too. -/
def Draft.stars (before : Option Char) (draft : Draft) (rest : List Char) : Point :=
  if draft.tokens.isEmpty then
    match rest with
    | [] => ⟨.plain, some '*', draft.push .anyPrefix, []⟩
    | e :: others =>
      if e = separator then ⟨.plain, some e, draft.push .anyPrefix, others⟩ else .afterStars draft rest
  else if before ≠ some separator ∧ (¬ draft.inGroup ∨ before ≠ some ',' ∧ before ≠ some '{') then
    .afterStars draft rest
  else
    match rest with
    | [] => ⟨.plain, some '*', draft.pushRecursive .anySuffix, []⟩
    | e :: others =>
      if e = separator then ⟨.plain, some e, draft.pushRecursive .anyBetween, others⟩
      else if draft.inGroup ∧ (e = ',' ∨ e = '}') then ⟨.plain, some '*', draft.pushRecursive .anySuffix, rest⟩
      else .afterStars draft rest

/-- What one character does, or two stars. -/
def step (mode : Mode) (before : Option Char) (draft : Draft) (c : Char) (rest : List Char) : Except Fault Point :=
  match mode with
  | .escaped => .ok ⟨.plain, some c, draft.push (.literal c), rest⟩
  | .setStart =>
    let set := if c = '!' ∨ c = '^' then ⟨true, [], true, false⟩ else ⟨false, [(c, c)], false, false⟩
    .ok ⟨.inSet set, some c, draft, rest⟩
  | .inSet set =>
    if c = ']' ∧ ¬ set.first then .ok ⟨.plain, some c, draft.push set.finish, rest⟩
    else (set.read c).map fun set => ⟨.inSet set, some c, draft, rest⟩
  | .plain =>
    if c ≠ '*' then (draft.sign c).map fun next => ⟨next.1, some c, next.2, rest⟩
    else if rest.head? = some '*' then .ok (draft.stars before rest.tail)
    else .ok ⟨.plain, some '*', draft.push .star, rest⟩

/-- Reading goes step by step. -/
theorem parse_step (mode : Mode) (before : Option Char) (draft : Draft) (c : Char) (rest : List Char) :
    parseFrom mode before draft (c :: rest) = (step mode before draft c rest).bind Point.parse := by
  rw [parseFrom.eq_def]
  unfold step
  cases mode with
  | escaped => rfl
  | setStart => simp only; split <;> rfl
  | inSet set =>
      simp only
      split
      case isTrue => rfl
      case isFalse => cases set.read c <;> rfl
  | plain =>
      simp only
      by_cases hstar : c = '*'
      · subst hstar
        cases rest with
        | nil => rfl
        | cons d more =>
            by_cases hstars : d = '*'
            · subst hstars
              cases more <;> simp [Draft.stars, apply_ite Point.parse, Except.bind] <;> rfl
            · simp [hstars, Except.bind, Point.parse]
      · unfold Draft.sign
        rw [if_pos hstar]
        by_cases hclose : c = '}'
        · subst hclose
          cases draft.closeGroup <;> rfl
        · split_ifs <;> rfl

/-- Tokens put behind others and a separator. A `**` that they start with takes the separator in. -/
def joinTokens (front : List Token) : List Token → List Token
  | [.anyPrefix] => front ++ [.anySuffix]
  | .anyPrefix :: rest => front ++ .anyBetween :: rest
  | tokens => front ++ .literal separator :: tokens

/-- The outermost tokens of a draft, last one first, behind others that are last one first too. -/
def behindTokens (front : List Token) : List Token → List Token
  | [] => .literal separator :: front
  | [.anyPrefix] => .anyBetween :: front
  | token :: before => token :: behindTokens front before

/-- The open groups of a draft, the outermost behind other tokens. -/
def behindGroups (front : List Token) :
    List (List Token × List (List Token)) → List (List Token × List (List Token))
  | [] => []
  | [(before, branches)] => [(behindTokens front before, branches)]
  | group :: outer => group :: behindGroups front outer

/-- A draft that is read behind other tokens and a separator. -/
def Draft.behind (front : List Token) (draft : Draft) : Draft where
  tokens := if draft.inGroup then draft.tokens else behindTokens front draft.tokens
  groups := behindGroups front draft.groups

section draft

variable (front : List Token) (draft : Draft)

/-- A token that is no `**` at the start stays in front of those that go behind. -/
theorem behind_tokens_cons {token : Token} {before : List Token} (h : token ≠ .anyPrefix ∨ before ≠ []) :
    behindTokens front (token :: before) = token :: behindTokens front before := by
  rw [behindTokens]
  rintro rfl rfl
  simp at h

/-- Behind other tokens there is always a token. -/
theorem behind_tokens_ne_nil (tokens : List Token) : behindTokens front tokens ≠ [] := by
  unfold behindTokens
  split <;> simp

/-- Other tokens in front do not open or close a group. -/
theorem in_group_behind : (draft.behind front).inGroup = draft.inGroup := by
  obtain ⟨tokens, groups⟩ := draft
  cases groups with
  | nil => rfl
  | cons group outer => cases outer <;> rfl

/-- A token other than a `**` at the start is put on a draft behind other tokens as on the draft itself.
-/
theorem push_behind {token : Token} (h : token ≠ .anyPrefix) :
    (draft.behind front).push token = (draft.push token).behind front := by
  obtain ⟨tokens, groups⟩ := draft
  cases groups with
  | nil => simp [Draft.push, Draft.behind, Draft.inGroup, behind_tokens_cons front (.inl h)]
  | cons group outer => rfl

/-- A group is opened behind other tokens as without them. -/
theorem open_group_behind : (draft.behind front).openGroup = draft.openGroup.behind front := by
  obtain ⟨tokens, groups⟩ := draft
  cases groups <;> rfl

/-- A comma is read behind other tokens as without them. -/
theorem comma_behind : (draft.behind front).comma = draft.comma.behind front := by
  obtain ⟨tokens, groups⟩ := draft
  cases groups with
  | nil => exact push_behind front ⟨tokens, []⟩ (by simp)
  | cons group outer => cases outer <;> rfl

/-- A group is closed behind other tokens as without them. -/
theorem close_group_behind : (draft.behind front).closeGroup = draft.closeGroup.map (Draft.behind front) := by
  obtain ⟨tokens, groups⟩ := draft
  cases groups with
  | nil => rfl
  | cons group outer =>
      cases outer with
      | nil =>
          simp [Draft.closeGroup, Draft.behind, behindGroups, Draft.inGroup, Except.map, behind_tokens_cons front]
      | cons next outer => rfl

/-- A later `**` is put on a draft behind other tokens as on the draft itself. -/
theorem push_recursive_behind {token : Token} (h : token ≠ .anyPrefix) (hsome : draft.tokens ≠ [])
    (hfirst : draft = ⟨[.anyPrefix], []⟩ → token = .anyBetween) :
    (draft.behind front).pushRecursive token = (draft.pushRecursive token).behind front := by
  obtain ⟨tokens, groups⟩ := draft
  obtain ⟨last, before, rfl⟩ := List.exists_cons_of_ne_nil hsome
  cases groups with
  | cons group outer => cases last <;> rfl
  | nil =>
      cases before with
      | cons other before =>
          cases last <;> simp [Draft.pushRecursive, Draft.behind, Draft.inGroup, behindTokens, behindGroups]
      | nil =>
          cases last <;> simp_all [Draft.pushRecursive, Draft.behind, Draft.inGroup, behindTokens, behindGroups]

/-- In a group, `**` at the start of a branch is read as it is anywhere. -/
theorem push_prefix_behind (h : draft.groups ≠ []) :
    (draft.behind front).push .anyPrefix = (draft.push .anyPrefix).behind front := by
  obtain ⟨tokens, groups⟩ := draft
  cases groups with
  | nil => exact absurd rfl h
  | cons group outer => rfl

/-- The tokens of an open group do not change behind other tokens. -/
theorem tokens_behind (h : draft.groups ≠ []) : (draft.behind front).tokens = draft.tokens := by
  obtain ⟨tokens, groups⟩ := draft
  cases groups with
  | nil => exact absurd rfl h
  | cons group outer => rfl

/-- A draft with tokens has tokens behind others. -/
theorem tokens_behind_ne_nil (h : draft.tokens ≠ []) : (draft.behind front).tokens ≠ [] := by
  obtain ⟨tokens, groups⟩ := draft
  cases groups with
  | nil => exact behind_tokens_ne_nil front tokens
  | cons group outer => exact h

/-- Two stars are put on a draft behind other tokens as on the draft itself. -/
theorem push_stars_behind : (draft.behind front).pushStars = draft.pushStars.behind front := by
  unfold Draft.pushStars
  rw [push_behind front draft (by simp), push_behind front _ (by simp)]

end draft

/-- The tokens behind others follow from the first of them. -/
theorem behind_tokens_concat (front : List Token) (tokens : List Token) (first : Token) :
    behindTokens front (tokens ++ [first]) = tokens ++ behindTokens front [first] := by
  induction tokens with
  | nil => rfl
  | cons token tokens ih => rw [List.cons_append, behind_tokens_cons front (.inr (by simp)), ih, List.cons_append]

/-- A draft that is not `**` alone is finished behind the front as it is by itself. -/
theorem reverse_behind_tokens (front : List Token) {tokens : List Token} (h : tokens ≠ [.anyPrefix]) :
    (behindTokens front tokens).reverse = joinTokens front.reverse tokens.reverse := by
  rcases List.eq_nil_or_concat tokens with rfl | ⟨others, first, rfl⟩
  · simp [behindTokens, joinTokens]
  · rw [List.concat_eq_append] at h ⊢
    rw [behind_tokens_concat]
    cases first with
    | anyPrefix => simp_all [behindTokens, joinTokens]
    | _ => simp [behindTokens, joinTokens]

/-- A point behind other tokens and a separator. A `**` alone with nothing left takes the separator in. -/
def Point.behind (front : List Token) : Point → Point
  | ⟨.plain, before, ⟨[.anyPrefix], []⟩, []⟩ => ⟨.plain, before, ⟨.anySuffix :: front, []⟩, []⟩
  | ⟨mode, before, draft, rest⟩ => ⟨mode, before, draft.behind front, rest⟩

/-- A draft with something in it, other than `**` alone. -/
def Draft.Started (draft : Draft) : Prop :=
  draft ≠ ⟨[], []⟩ ∧ draft ≠ ⟨[.anyPrefix], []⟩

/-- A draft has started when a token other than a `**` at the start was put on it. -/
theorem started_push (draft : Draft) {token : Token} (h : token ≠ .anyPrefix) : (draft.push token).Started := by
  simp [Draft.Started, Draft.push, h]

/-- A draft has started behind a comma. -/
theorem started_comma (draft : Draft) : draft.comma.Started := by
  unfold Draft.comma
  split
  case h_1 => exact started_push draft (by simp)
  case h_2 => simp [Draft.Started]

/-- A draft has started behind a group. -/
theorem started_close_group {draft next : Draft} (h : draft.closeGroup = .ok next) : next.Started := by
  unfold Draft.closeGroup at h
  split at h
  case h_1 => cases h
  case h_2 =>
    obtain rfl := Except.ok.inj h
    simp [Draft.Started]

/-- A draft has started behind a later `**`. -/
theorem started_push_recursive {draft : Draft} {token : Token} (hsome : draft.tokens ≠ []) (h : token ≠ .anyPrefix)
    (halone : draft ≠ ⟨[.anyPrefix], []⟩) : (draft.pushRecursive token).Started := by
  obtain ⟨tokens, groups⟩ := draft
  obtain ⟨last, others, rfl⟩ := List.exists_cons_of_ne_nil hsome
  cases last <;> simp_all [Draft.pushRecursive, Draft.Started]

/-- Outside of sets, a character other than a star says something. -/
theorem sign_started {draft : Draft} {c : Char} {next : Mode × Draft} (h : draft.sign c = .ok next)
    (hplain : next.1 = .plain) : next.2.Started := by
  unfold Draft.sign at h
  by_cases hclose : c = '}'
  · subst hclose
    cases hclosed : draft.closeGroup with
    | error fault => simp [hclosed, Except.map] at h
    | ok closed =>
        obtain rfl : (.plain, closed) = next := by simpa [hclosed, Except.map] using h
        exact started_close_group hclosed
  · rw [if_neg hclose] at h
    split_ifs at h <;> cases h
    · exact started_push draft (by simp)
    · cases hplain
    · simp [Draft.Started, Draft.openGroup]
    · exact started_comma draft
    · cases hplain
    · exact started_push draft (by simp)

section behind

variable (front : List Token) {mode : Mode} {before : Option Char} {draft : Draft} {c : Char} {rest : List Char}

/-- A point goes on behind other tokens with its draft behind them, unless it is at the end of a `**`
alone. -/
theorem point_behind_eq (h : mode = .plain → draft = ⟨[.anyPrefix], []⟩ → rest ≠ []) :
    Point.behind front ⟨mode, before, draft, rest⟩ = ⟨mode, before, draft.behind front, rest⟩ := by
  unfold Point.behind
  split
  case h_1 heq =>
    cases heq
    exact absurd rfl (h rfl rfl)
  case h_2 heq =>
    cases heq
    rfl

/-- A point with characters left goes on behind other tokens with its draft behind them. -/
theorem point_behind_of_cons :
    Point.behind front ⟨mode, before, draft, c :: rest⟩ = ⟨mode, before, draft.behind front, c :: rest⟩ :=
  point_behind_eq front fun _ _ => List.cons_ne_nil c rest

/-- A point behind other tokens takes a token as the point itself does. -/
theorem push_point_behind {token : Token} (h : token ≠ .anyPrefix) :
    (⟨mode, before, (draft.behind front).push token, rest⟩ : Point) =
      Point.behind front ⟨mode, before, draft.push token, rest⟩ := by
  rw [push_behind front draft h, point_behind_eq front fun _ halone => absurd halone (started_push draft h).2]

/-- Stars lead to the same point behind other tokens as without them. -/
theorem after_stars_behind :
    Point.afterStars (draft.behind front) rest = (Point.afterStars draft rest).behind front := by
  unfold Point.afterStars
  rw [push_stars_behind, point_behind_eq front (by simp [Draft.pushStars, Draft.push])]

/-- A character of its own meaning does the same to a draft behind other tokens. -/
theorem sign_behind :
    (draft.behind front).sign c = (draft.sign c).map fun next => (next.1, next.2.behind front) := by
  unfold Draft.sign
  rw [push_behind front draft (by simp), push_behind front draft (by simp), open_group_behind, close_group_behind,
    comma_behind]
  by_cases hclose : c = '}'
  · subst hclose
    cases draft.closeGroup <;> rfl
  · split_ifs <;> rfl

/-- Two stars behind a separator, with nothing left. -/
theorem last_stars_behind (hsome : draft.tokens ≠ []) :
    (⟨.plain, some '*', (draft.behind front).pushRecursive .anySuffix, []⟩ : Point) =
      Point.behind front ⟨.plain, some '*', draft.pushRecursive .anySuffix, []⟩ := by
  by_cases halone : draft = ⟨[.anyPrefix], []⟩
  · rw [halone]
    rfl
  · rw [push_recursive_behind front draft (by simp) hsome fun h => absurd h halone,
      point_behind_eq front fun _ h => absurd h (started_push_recursive hsome (by simp) halone).2]

/-- A separator that is not the last character has others behind it. -/
theorem ne_nil_of_last {others : List Char} (h : (separator :: others).getLast? ≠ some separator) :
    others ≠ [] := by
  rintro rfl
  exact h rfl

/-- At the start, the front ends in a separator, which `**` replaces. -/
theorem start_stars_behind (hlast : rest.getLast? ≠ some separator) :
    ((Draft.mk [] []).behind front).stars (some separator) rest =
      ((Draft.mk [] []).stars (some separator) rest).behind front := by
  cases rest with
  | nil => rfl
  | cons e others =>
      unfold Draft.stars
      rw [after_stars_behind]
      by_cases hslash : e = separator
      · subst hslash
        simp [Draft.behind, Draft.inGroup, behindTokens, behindGroups, Draft.pushRecursive, Draft.push,
          point_behind_eq front fun _ _ => ne_nil_of_last hlast]
      · simp [hslash, Draft.inGroup, Draft.behind, behindTokens, behindGroups]

/-- At the start of a branch, the front does not show. -/
theorem branch_stars_behind (htokens : draft.tokens = []) (hgroups : draft.groups ≠ []) :
    (draft.behind front).stars before rest = (draft.stars before rest).behind front := by
  have hbehind : (draft.behind front).tokens = [] := (tokens_behind front draft hgroups).trans htokens
  have hpush : ∀ {before : Option Char} {rest : List Char},
      (⟨.plain, before, (draft.behind front).push .anyPrefix, rest⟩ : Point) =
        Point.behind front ⟨.plain, before, draft.push .anyPrefix, rest⟩ := by
    intro before rest
    rw [push_prefix_behind front draft hgroups, point_behind_eq front fun _ h => ?_]
    exact absurd (congrArg Draft.groups h) hgroups
  unfold Draft.stars
  rw [after_stars_behind, hbehind, htokens]
  cases rest with
  | nil => exact hpush
  | cons e others => simp [hpush, apply_ite (Point.behind front)]

/-- Behind other tokens, two stars are read as they are behind the front. -/
theorem later_stars_behind (hlast : rest.getLast? ≠ some separator) (hsome : draft.tokens ≠ []) :
    (draft.behind front).stars before rest = (draft.stars before rest).behind front := by
  have hbehind : (draft.behind front).tokens ≠ [] := tokens_behind_ne_nil front draft hsome
  have hempty : ∀ {tokens : List Token}, tokens ≠ [] → ¬ tokens.isEmpty := by simp
  unfold Draft.stars
  rw [after_stars_behind, in_group_behind, if_neg (hempty hsome), if_neg (hempty hbehind),
    apply_ite (Point.behind front)]
  refine ite_congr rfl (fun _ => rfl) fun _ => ?_
  cases rest with
  | nil => exact last_stars_behind front hsome
  | cons e others =>
      have hbranch : draft.inGroup → (draft.behind front).pushRecursive .anySuffix =
          (draft.pushRecursive .anySuffix).behind front := by
        intro hgroup
        refine push_recursive_behind front draft (by simp) hsome fun halone => ?_
        rw [halone] at hgroup
        cases hgroup
      simp only [apply_ite (Point.behind front), point_behind_of_cons]
      refine ite_congr rfl (fun hslash => ?_) fun _ => ite_congr rfl (fun hgroup => ?_) fun _ => rfl
      · subst hslash
        rw [push_recursive_behind front draft (by simp) hsome fun _ => rfl,
          point_behind_eq front fun _ _ => ne_nil_of_last hlast]
      · rw [hbranch hgroup.1]

/-- Two stars do the same behind a front, where at the start they are two stars behind its separator. -/
theorem stars_behind (hlast : rest.getLast? ≠ some separator)
    (hstart : draft = ⟨[], []⟩ → before = some separator) :
    (draft.behind front).stars before rest = (draft.stars before rest).behind front := by
  by_cases htokens : draft.tokens = []
  · by_cases hgroups : draft.groups = []
    · obtain ⟨tokens, groups⟩ := draft
      obtain rfl : tokens = [] := htokens
      obtain rfl : groups = [] := hgroups
      rw [hstart rfl]
      exact start_stars_behind front hlast
    · exact branch_stars_behind front htokens hgroups
  · exact later_stars_behind front hlast htokens

/-- A point at which reading a glob behind a front comes to the same. What is left does not end in a separator,
since `**/` alone has the tokens of `**` but not so behind a front. Where nothing is read yet, the separator of
the front stands before. -/
structure Point.Fits (point : Point) : Prop where
  last : point.rest.getLast? ≠ some separator
  start : point.mode = .plain → point.draft = ⟨[], []⟩ → point.before = some separator

/-- The end of characters that do not end in a separator does not end in one. -/
theorem last_of_suffix {chars others : List Char} (h : chars.getLast? ≠ some separator)
    (hsuffix : others <:+ chars) :
    others.getLast? ≠ some separator := by
  obtain ⟨read, rfl⟩ := hsuffix
  intro hlast
  rw [List.getLast?_append, hlast] at h
  exact h rfl

/-- A step is the same behind a front. -/
theorem step_behind (h : Point.Fits ⟨mode, before, draft, c :: rest⟩) :
    step mode before (draft.behind front) c rest = (step mode before draft c rest).map (Point.behind front) := by
  have hrest : rest.tail.getLast? ≠ some separator :=
    last_of_suffix h.last ((List.tail_suffix rest).trans (List.suffix_cons c rest))
  unfold step
  cases mode with
  | escaped =>
      simp only [Except.map]
      rw [push_point_behind front (by simp)]
  | setStart =>
      simp only [Except.map]
      rw [point_behind_eq front (by simp)]
  | inSet set =>
      simp only
      split
      case isTrue =>
        simp only [Except.map]
        rw [push_point_behind front (by simp [SetDraft.finish])]
      case isFalse =>
        cases set.read c with
        | error fault => rfl
        | ok set =>
            simp only [Except.map]
            rw [point_behind_eq front (by simp)]
  | plain =>
      simp only
      split
      case isTrue =>
        rw [sign_behind]
        cases hsign : draft.sign c with
        | error fault => rfl
        | ok next =>
            have halone := fun hplain => (sign_started hsign hplain).2
            simp only [Except.map]
            rw [point_behind_eq front fun hplain h => absurd h (halone hplain)]
      case isFalse =>
        split
        case isTrue =>
          rw [stars_behind front hrest (h.start rfl)]
          rfl
        case isFalse =>
          simp only [Except.map]
          rw [push_point_behind front (by simp)]

end behind

section run

variable {mode : Mode} {before : Option Char} {draft : Draft} {c : Char} {rest : List Char} {next : Point}

/-- Two stars say something, and take a separator behind them at most. -/
theorem stars_ends (before : Option Char) (draft : Draft) (rest : List Char) :
    (draft.stars before rest).rest <:+ rest ∧ (draft.stars before rest).draft ≠ ⟨[], []⟩ := by
  have hrecursive : ¬ draft.tokens.isEmpty → ∀ token, draft.pushRecursive token ≠ ⟨[], []⟩ := by
    intro hsome token
    obtain ⟨tokens, groups⟩ := draft
    cases tokens with
    | nil => exact absurd rfl hsome
    | cons last others => cases last <;> simp [Draft.pushRecursive]
  unfold Draft.stars Point.afterStars
  cases rest with
  | nil => split_ifs with hfirst hwithin <;> simp_all [Draft.push, Draft.pushStars]
  | cons e others =>
      simp only
      split_ifs <;> simp_all [Draft.push, Draft.pushStars, List.suffix_cons]

/-- After a step something is read, and what is left is left of what was. -/
theorem step_ends (h : step mode before draft c rest = .ok next) :
    next.rest <:+ rest ∧ (next.mode = .plain → next.draft ≠ ⟨[], []⟩) := by
  have hpush : ∀ token, draft.push token ≠ ⟨[], []⟩ := by simp [Draft.push]
  unfold step at h
  cases mode with
  | escaped =>
      obtain rfl := Except.ok.inj h
      exact ⟨List.suffix_rfl, fun _ => hpush _⟩
  | setStart =>
      obtain rfl := Except.ok.inj h
      exact ⟨List.suffix_rfl, by simp⟩
  | inSet set =>
      simp only at h
      split at h
      case isTrue =>
        obtain rfl := Except.ok.inj h
        exact ⟨List.suffix_rfl, fun _ => hpush _⟩
      case isFalse =>
        cases hread : set.read c with
        | error fault => simp [hread, Except.map] at h
        | ok set =>
            rw [hread] at h
            obtain rfl := Except.ok.inj h
            exact ⟨List.suffix_rfl, by simp⟩
  | plain =>
      simp only at h
      split at h
      case isTrue =>
        cases hsign : draft.sign c with
        | error fault => simp [hsign, Except.map] at h
        | ok after =>
            rw [hsign] at h
            obtain rfl := Except.ok.inj h
            exact ⟨List.suffix_rfl, fun hplain => (sign_started hsign hplain).1⟩
      case isFalse =>
        split at h
        case isTrue =>
          obtain rfl := Except.ok.inj h
          obtain ⟨hrest, hdraft⟩ := stars_ends before draft rest.tail
          exact ⟨hrest.trans (List.tail_suffix rest), fun _ => hdraft⟩
        case isFalse =>
          obtain rfl := Except.ok.inj h
          exact ⟨List.suffix_rfl, fun _ => hpush _⟩

/-- A step leads from a fitting point to a fitting point. -/
theorem Point.Fits.step (h : Point.Fits ⟨mode, before, draft, c :: rest⟩)
    (hstep : step mode before draft c rest = .ok next) : next.Fits := by
  obtain ⟨hrest, hdraft⟩ := step_ends hstep
  exact ⟨last_of_suffix h.last (hrest.trans (List.suffix_cons c rest)),
    fun hplain hnone => absurd hnone (hdraft hplain)⟩

/-- Where nothing is left, what is read behind a front is what is read by itself, joined to it. -/
theorem parse_end_behind (front : List Token) (mode : Mode) (before : Option Char) (draft : Draft) :
    (Point.behind front ⟨mode, before, draft, []⟩).parse =
      (Point.parse ⟨mode, before, draft, []⟩).map (joinTokens front.reverse) := by
  by_cases halone : mode = .plain ∧ draft = ⟨[.anyPrefix], []⟩
  · obtain ⟨rfl, rfl⟩ := halone
    simp [Point.behind, Point.parse, parseFrom, Draft.inGroup, Except.map, joinTokens]
  · rw [point_behind_eq front fun hplain hdraft => absurd ⟨hplain, hdraft⟩ halone]
    unfold Point.parse
    cases mode with
    | escaped | setStart | inSet => simp [parseFrom, Except.map]
    | plain =>
        simp only [parseFrom, in_group_behind]
        split
        case isTrue => rfl
        case isFalse hgroup =>
          obtain ⟨tokens, groups⟩ := draft
          obtain rfl : groups = [] := by simpa [Draft.inGroup] using hgroup
          have hne : tokens ≠ [.anyPrefix] := fun hdone => halone ⟨rfl, by rw [hdone]⟩
          exact congrArg Except.ok (reverse_behind_tokens front hne)

/-- Reading a glob behind a front comes to what it comes to by itself, joined to the front. -/
theorem parse_behind (front : List Token) {point : Point} (h : point.Fits) :
    (point.behind front).parse = point.parse.map (joinTokens front.reverse) := by
  obtain ⟨mode, before, draft, chars⟩ := point
  -- A step may read more than one character, so the induction is on how many are left.
  induction hcount : chars.length using Nat.strongRecOn generalizing mode before draft chars with
  | _ count ih =>
      cases chars with
      | nil => exact parse_end_behind front mode before draft
      | cons c rest =>
          rw [point_behind_of_cons]
          unfold Point.parse
          rw [parse_step, parse_step, step_behind front h]
          cases hstep : step mode before draft c rest with
          | error fault => rfl
          | ok next =>
              have hshorter : next.rest.length < count := by
                have hle := (step_ends hstep).1.length_le
                rw [List.length_cons] at hcount
                omega
              exact ih next.rest.length hshorter next.mode next.before next.draft next.rest (h.step hstep) rfl

end run

/-- A character that stands for itself outside of groups. -/
def IsPlain (c : Char) : Prop :=
  c ∉ ['?', '[', '{', '}', '\\', '*']

/-- A plain character is read as a literal. -/
theorem parse_plain {c : Char} (h : IsPlain c) (before : Option Char) (tokens : List Token) (rest : List Char) :
    parseFrom .plain before ⟨tokens, []⟩ (c :: rest) =
      parseFrom .plain (some c) ⟨.literal c :: tokens, []⟩ rest := by
  have hsign : (Draft.mk tokens []).sign c = .ok (.plain, ⟨.literal c :: tokens, []⟩) := by
    unfold IsPlain at h
    by_cases hcomma : c = ','
    · rw [hcomma]
      rfl
    · simp_all [Draft.sign, Draft.push]
  have hstar : c ≠ '*' := by
    rintro rfl
    simp [IsPlain] at h
  rw [parse_step]
  simp only [step, if_pos hstar, hsign]
  rfl

/-- A front of plain characters and the separator behind it are read as literals. -/
theorem parse_front {front : List Char} (h : ∀ c ∈ front, IsPlain c) (before : Option Char) (tokens : List Token)
    (glob : List Char) :
    parseFrom .plain before ⟨tokens, []⟩ (front ++ separator :: glob) =
      parseFrom .plain (some separator) ⟨.literal separator :: ((front.map .literal).reverse ++ tokens), []⟩
        glob := by
  induction front generalizing before tokens with
  | nil => exact parse_plain (by simp [IsPlain, separator]) before tokens glob
  | cons c front ih =>
      obtain ⟨hc, hfront⟩ := List.forall_mem_cons.mp h
      rw [List.cons_append, parse_plain hc, ih hfront]
      simp

/-- What stands in front of a glob does not matter to its start. -/
theorem parse_at_start (before before' : Option Char) (chars : List Char) :
    parseFrom .plain before ⟨[], []⟩ chars = parseFrom .plain before' ⟨[], []⟩ chars := by
  cases chars with
  | nil => simp [parseFrom]
  | cons c rest =>
      rw [parse_step, parse_step]
      rfl

/-- A glob behind a plain front. -/
theorem parse_join {front glob : List Char} (hfront : ∀ c ∈ front, IsPlain c)
    (hlast : glob.getLast? ≠ some separator) :
    parseFrom .plain none ⟨[], []⟩ (front ++ separator :: glob) =
      (parseFrom .plain none ⟨[], []⟩ glob).map (joinTokens (front.map .literal)) := by
  have hfits : Point.Fits ⟨.plain, some separator, ⟨[], []⟩, glob⟩ := ⟨hlast, fun _ _ => rfl⟩
  have hbehind := parse_behind (front.map .literal).reverse hfits
  rw [List.reverse_reverse, point_behind_eq _ (by simp)] at hbehind
  rw [parse_front hfront, List.append_nil, parse_at_start none (some separator)]
  exact hbehind

open Text.Utf8 (bytesOf)

/-- A glob matches a byte sequence. -/
def Accepts (glob : List Token) (bytes : List UInt8) : Prop :=
  glob = [.anyPrefix] ∨ [] ∈ rests glob bytes

/-- A glob matches a path exactly when it accepts the bytes of the path. -/
theorem is_match_iff (glob : List Token) (path : String) :
    isMatch glob path = true ↔ Accepts glob (Text.Utf8.encode path) := by
  unfold isMatch Accepts
  split
  case h_1 => simp
  case h_2 hother =>
    have hcontains : (rests glob (Text.Utf8.encode path)).contains [] = true ↔
        [] ∈ rests glob (Text.Utf8.encode path) := by simp
    rw [hcontains]
    exact ⟨.inr, fun h => h.resolve_left hother⟩

/-- What a glob leaves is what its later tokens leave of what the first one leaves. -/
theorem mem_rests_cons {token : Token} {glob : List Token} {bytes rest : List UInt8} :
    rest ∈ rests (token :: glob) bytes ↔ ∃ mid ∈ token.rests bytes, rest ∈ rests glob mid := by
  rw [rests, List.mem_eraseDups, List.mem_flatMap]

/-- What is left after bytes is what stands behind them. -/
theorem mem_after_bytes {front bytes rest : List UInt8} :
    rest ∈ afterBytes front bytes ↔ bytes = front ++ rest := by
  induction front generalizing bytes with
  | nil => simp [afterBytes, eq_comm]
  | cons a front ih =>
      cases bytes with
      | nil => simp [afterBytes]
      | cons b bytes =>
          unfold afterBytes
          split
          case isTrue heq => simp [ih, heq]
          case isFalse hne => simp [Ne.symm hne]

/-- Literals take their bytes from the front. -/
theorem mem_rests_literals {front : List Char} {glob : List Token} {bytes rest : List UInt8} :
    rest ∈ rests (front.map .literal ++ glob) bytes ↔
      ∃ behind, bytes = bytesOf front ++ behind ∧ rest ∈ rests glob behind := by
  induction front generalizing bytes with
  | nil => simp
  | cons c front ih =>
      rw [List.map_cons, List.cons_append, mem_rests_cons]
      simp only [Token.rests, mem_after_bytes, ih, Text.Utf8.bytes_of_cons]
      constructor
      · rintro ⟨mid, rfl, behind, rfl, hrest⟩
        exact ⟨behind, by rw [List.append_assoc], hrest⟩
      · rintro ⟨behind, rfl, hrest⟩
        exact ⟨_, by rw [List.append_assoc], behind, rfl, hrest⟩

/-- Nothing is a suffix of any bytes. -/
theorem nil_mem_suffixes (bytes : List UInt8) : [] ∈ suffixes bytes := by
  induction bytes with
  | nil => simp [suffixes]
  | cons b rest ih => simp [suffixes, ih]

/-- The separator is written as one byte. -/
theorem bytes_of_separator : bytesOf [separator] = [separatorByte] := by decide

/-- The rest of a joined glob matches a separator and what the glob matches. -/
theorem nil_mem_rests_join {glob : List Token} {bytes : List UInt8} :
    [] ∈ rests (joinTokens [] glob) bytes ↔ ∃ more, bytes = separatorByte :: more ∧ Accepts glob more := by
  unfold joinTokens Accepts
  split
  case h_1 =>
    rw [List.nil_append, mem_rests_cons]
    cases bytes with
    | nil => simp [Token.rests]
    | cons b more =>
        by_cases hb : b = separatorByte
        · simp [Token.rests, rests, hb, nil_mem_suffixes]
        · simp [Token.rests, hb]
  case h_2 rest hsome =>
    rw [List.nil_append, mem_rests_cons]
    cases bytes with
    | nil => simp [Token.rests]
    | cons b more =>
        by_cases hb : b = separatorByte
        · have hsome' : rest ≠ [] := hsome
          simp [Token.rests, hb, mem_rests_cons, hsome']
        · simp [Token.rests, hb]
  case h_3 halone _ =>
    have hliteral := @mem_rests_literals [separator] glob bytes []
    rw [bytes_of_separator] at hliteral
    rw [List.nil_append]
    refine hliteral.trans (exists_congr fun more => ?_)
    rw [or_iff_right halone]
    rfl

/-- A glob behind a front matches the front, a separator, and what the glob matches. -/
theorem accepts_join {front : List Char} {glob : List Token} {bytes : List UInt8} :
    Accepts (joinTokens (front.map .literal) glob) bytes ↔
      ∃ behind, bytes = bytesOf (front ++ [separator]) ++ behind ∧ Accepts glob behind := by
  have hsplit : joinTokens (front.map .literal) glob = front.map .literal ++ joinTokens [] glob := by
    unfold joinTokens
    split <;> rfl
  have hne : front.map .literal ++ joinTokens [] glob ≠ [.anyPrefix] := by
    cases front with
    | nil =>
        unfold joinTokens
        split <;> simp
    | cons c front => simp
  rw [Accepts, hsplit, or_iff_right hne, mem_rests_literals]
  simp only [nil_mem_rests_join, Text.Utf8.bytes_of_append, bytes_of_separator]
  constructor
  · rintro ⟨_, rfl, more, rfl, hmore⟩
    exact ⟨more, by simp, hmore⟩
  · rintro ⟨more, rfl, hmore⟩
    exact ⟨separatorByte :: more, by simp, more, rfl, hmore⟩

end TestMeasures.Glob
