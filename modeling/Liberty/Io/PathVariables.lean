import Liberty.Text.NativelyStoredString

/-!
# PATH_NAME: expand_variables

The text of a path is scanned for `$name` and `${name}`, which stand for environment variables.  The
pieces of a text, `tokens`, say what is to become of it.  The scan treats a dollar before the last
character, or at the end, differently.
-/

namespace Liberty

def Character.isLetter (c : Character) : Bool :=
  if 97 ≤ c.code then decide (c.code ≤ 122) else if 65 ≤ c.code then decide (c.code ≤ 90) else false

def Character.isLetterOrDigit (c : Character) : Bool :=
  c.isLetter || c.isDecimalDigit

namespace PathName

/-! ## The source -/

def dollar : Character := 36

def leftBrace : Character := 123

def rightBrace : Character := 125

/-- `to_string.item(p)` -/
def item (text : List Character) (p : Int) : Option Character :=
  if 1 ≤ p then text[(p - 1).toNat]? else none

/-- The inner loops: `varname` and `subst` are extended as long as the characters go on. -/
def scanWhile (text : List Character) (goesOn : Character → Bool) (p : Int)
    (varname subst : List Character) : Option (Int × List Character × List Character) :=
  untilLoop
    (fun ((p, _, _) : Int × List Character × List Character) => do
      if p > text.length then return true
      return !goesOn (← item text p))
    (fun (p, varname, subst) => do
      let c ← item text p
      return (p + 1, varname ++ [c], subst ++ [c]))
    text.length (p, varname, subst)

/-- The part of the loop between a dollar and the replacement, from the index behind the dollar on. -/
def scanVariable (text : List Character) (p : Int) : Option (Int × List Character × List Character) :=
  if p = text.length then
    some (p, [], [dollar])
  else do
    if (← item text p) = leftBrace then
      let (p, varname, subst) ← scanWhile text (· != rightBrace) (p + 1) [] [dollar, leftBrace]
      if p ≤ (text.length : Int) then
        return (p + 1, varname, subst ++ [rightBrace])
      else
        -- invalid variable
        return (p, [], subst)
    else
      scanWhile text Character.isLetterOrDigit p [] [dollar]

/-- `environment` is `get_environment_variable`; it is not asked for the empty name. -/
def substitute (environment : List Character → Option (List Character)) (varname subst : List Character) :
    List Character :=
  if varname = [] then subst else (environment varname).getD subst

/-- A round of the loop. -/
def expandRound (environment : List Character → Option (List Character)) (text : List Character)
    (p : Int) (new : List Character) : Option (Int × List Character) := do
  let c ← item text p
  if c = dollar then
    let (p, varname, subst) ← scanVariable text (p + 1)
    return (p, new ++ substitute environment varname subst)
  else
    return (p + 1, new ++ [c])

def expandVariables (environment : List Character → Option (List Character)) (text : List Character) :
    Option (List Character) := do
  let (_, new) ← untilLoop (fun ((p, _) : Int × List Character) => some (decide (p > text.length)))
    (fun (p, new) => expandRound environment text p new) text.length (1, [])
  return new

/-! ## The pieces of a text -/

inductive Token
  | character (c : Character)
  | braced (name : List Character)
  /-- A brace that is not closed. -/
  | unterminated (name : List Character)
  /-- A dollar, with the letters and digits behind it. -/
  | named (name : List Character)
  deriving DecidableEq

def Token.written : Token → List Character
  | .character c => [c]
  | .braced name => dollar :: leftBrace :: name ++ [rightBrace]
  | .unterminated name => dollar :: leftBrace :: name
  | .named name => dollar :: name

/-- What a piece is to be replaced by. -/
def Token.expansion (environment : List Character → Option (List Character)) : Token → List Character
  | .character c => [c]
  | .braced name => substitute environment name (Token.braced name).written
  | .unterminated name => (Token.unterminated name).written
  | .named name => substitute environment name (Token.named name).written

/-- The piece behind an opening brace, and what follows it. -/
def bracedToken (text : List Character) : Token × List Character :=
  match text.dropWhile (· != rightBrace) with
  | [] => (.unterminated text, [])
  | _ :: behind => (.braced (text.takeWhile (· != rightBrace)), behind)

/-- The piece behind a dollar. -/
def variableToken (text : List Character) : Token × List Character :=
  if text.head? = some leftBrace then bracedToken text.tail
  else (.named (text.takeWhile Character.isLetterOrDigit), text.dropWhile Character.isLetterOrDigit)

def firstToken : List Character → Option (Token × List Character)
  | [] => none
  | c :: rest => some (if c = dollar then variableToken rest else (.character c, rest))

theorem bracedToken_cases (text : List Character) :
    text.dropWhile (· != rightBrace) = [] ∧ bracedToken text = (.unterminated text, []) ∨
      ∃ behind, text = text.takeWhile (· != rightBrace) ++ rightBrace :: behind ∧
        bracedToken text = (.braced (text.takeWhile (· != rightBrace)), behind) := by
  unfold bracedToken
  split
  · rename_i none
    exact .inl ⟨none, rfl⟩
  · rename_i d behind found
    have parts := List.takeWhile_append_dropWhile (p := (· != rightBrace)) (l := text)
    have stops := List.head?_dropWhile_not (· != rightBrace) text
    rw [found] at parts stops
    have closes : d = rightBrace := by simpa using stops
    rw [closes] at parts
    exact .inr ⟨behind, parts.symm, rfl⟩

/-- A piece is made of the characters that it takes. -/
theorem written_variableToken (text : List Character) :
    (variableToken text).1.written ++ (variableToken text).2 = dollar :: text := by
  unfold variableToken
  split
  · rename_i brace
    obtain ⟨rest, rfl⟩ : ∃ rest, text = leftBrace :: rest := List.head?_eq_some_iff.mp brace
    rcases bracedToken_cases rest with ⟨-, eq⟩ | ⟨behind, split, eq⟩
    · rw [List.tail_cons, eq]
      exact List.append_nil _
    · rw [List.tail_cons, eq]
      conv_rhs => rw [split]
      simp [Token.written]
  · exact congrArg (dollar :: ·) List.takeWhile_append_dropWhile

theorem Token.written_pos (t : Token) : 0 < t.written.length := by
  cases t <;> exact Nat.succ_pos _

theorem written_firstToken {text behind : List Character} {t : Token} (first : firstToken text = some (t, behind)) :
    t.written ++ behind = text := by
  cases text with
  | nil => cases first
  | cons c rest =>
    have eq : (if c = dollar then variableToken rest else (.character c, rest)) = (t, behind) :=
      Option.some.inj first
    split at eq
    · rename_i here
      have parts := written_variableToken rest
      rwa [eq, ← here] at parts
    · cases eq
      rfl

theorem firstToken_shorter {text behind : List Character} {t : Token} (first : firstToken text = some (t, behind)) :
    behind.length < text.length := by
  have length := congrArg List.length (written_firstToken first)
  have positive := t.written_pos
  rw [List.length_append] at length
  omega

def tokens (text : List Character) : List Token :=
  match _first : firstToken text with
  | none => []
  | some (t, behind) => t :: tokens behind
termination_by text.length
decreasing_by exact firstToken_shorter _first

theorem tokens_eq {text behind : List Character} {t : Token} (first : firstToken text = some (t, behind)) :
    tokens text = t :: tokens behind := by
  rw [tokens]
  split
  · rename_i none
    rw [none] at first
    cases first
  · rename_i first'
    rw [first'] at first
    cases first
    rfl

@[simp] theorem tokens_nil : tokens [] = [] := by
  rw [tokens]
  rfl

theorem tokens_character {c : Character} (rest : List Character) (other : c ≠ dollar) :
    tokens (c :: rest) = .character c :: tokens rest :=
  tokens_eq (congrArg some (if_neg other))

theorem tokens_dollar (rest : List Character) :
    tokens (dollar :: rest) = (variableToken rest).1 :: tokens (variableToken rest).2 :=
  tokens_eq rfl

theorem flatMap_written_tokens (text : List Character) : (tokens text).flatMap Token.written = text := by
  induction text using tokens.induct with
  | case1 text none =>
    cases text with
    | nil => rw [tokens_nil, List.flatMap_nil]
    | cons => cases none
  | case2 text t behind first ih => rw [tokens_eq first, List.flatMap_cons, ih, written_firstToken first]

/-- What the text is to become. -/
def expanded (environment : List Character → Option (List Character)) (text : List Character) : List Character :=
  (tokens text).flatMap (Token.expansion environment)

/-! ## The scan -/

section Scan

variable {text before rest : List Character} {p : Int}

theorem item_append (position : p = before.length + 1) (c : Character) :
    item (before ++ c :: rest) p = some c := by
  unfold item
  rw [if_pos (by omega), show (p - 1).toNat = before.length by omega,
    List.getElem?_append_right (Nat.le_refl _), Nat.sub_self]
  rfl

theorem item_last (position : p = text.length + 1) : item text p = none := by
  unfold item
  rw [if_pos (by omega), show (p - 1).toNat = text.length by omega]
  exact List.getElem?_eq_none (Nat.le_refl _)

theorem untilLoop_scanWhile (goesOn : Character → Bool) (split : text = before ++ rest) (position : p = before.length + 1)
    (varname subst : List Character) {fuel : ℕ} (enough : rest.length ≤ fuel) :
    untilLoop
      (fun ((p, _, _) : Int × List Character × List Character) => do
        if p > text.length then return true
        return !goesOn (← item text p))
      (fun (p, varname, subst) => do
        let c ← item text p
        return (p + 1, varname ++ [c], subst ++ [c])) fuel (p, varname, subst) =
      some (p + (rest.takeWhile goesOn).length, varname ++ rest.takeWhile goesOn, subst ++ rest.takeWhile goesOn) := by
  induction rest generalizing before p varname subst fuel with
  | nil =>
    rw [untilLoop_stopped]
    · simp
    · dsimp only
      rw [if_pos (by rw [split, List.append_nil]; omega)]
      rfl
  | cons c rest ih =>
    have here : item text p = some c := by rw [split]; exact item_append position c
    have inside : ¬p > (text.length : Int) := by
      rw [split, List.length_append, List.length_cons]
      omega
    cases going : goesOn c with
    | false =>
      rw [untilLoop_stopped]
      · simp [going]
      · dsimp only
        rw [if_neg inside, here, Returns.some_bind, going]
        rfl
    | true =>
      obtain ⟨fuel, rfl⟩ : ∃ k, fuel = k + 1 := ⟨fuel - 1, by rw [List.length_cons] at enough; omega⟩
      rw [List.length_cons] at enough
      have next := @ih (before ++ [c]) (p + 1) (by rw [split, List.append_cons])
        (by rw [List.length_append, List.length_singleton]; omega) (varname ++ [c]) (subst ++ [c]) fuel (by omega)
      rw [untilLoop]
      dsimp only
      rw [if_neg inside, here, Returns.some_bind, going]
      refine Eq.trans next ?_
      rw [List.takeWhile_cons_of_pos going, List.append_assoc, List.append_assoc, List.length_cons]
      congr 2
      omega

theorem scanWhile_eq (goesOn : Character → Bool) (split : text = before ++ rest) (position : p = before.length + 1)
    (varname subst : List Character) : scanWhile text goesOn p varname subst =
      some (p + (rest.takeWhile goesOn).length, varname ++ rest.takeWhile goesOn, subst ++ rest.takeWhile goesOn) :=
  untilLoop_scanWhile goesOn split position varname subst (by rw [split, List.length_append]; omega)

/-- The name in a piece, as the source has it. -/
def Token.varname : Token → List Character
  | .character _ | .unterminated _ => []
  | .braced name | .named name => name

/-- Behind a dollar that two characters follow, or more, the piece is scanned. -/
theorem scanVariable_eq (split : text = before ++ rest) (position : p = before.length + 1) (two : 2 ≤ rest.length) :
    scanVariable text p = some (p + (rest.length - (variableToken rest).2.length),
      (variableToken rest).1.varname, (variableToken rest).1.written) := by
  obtain ⟨c, behind, rfl⟩ := List.exists_cons_of_ne_nil (List.ne_nil_of_length_pos (by omega : 0 < rest.length))
  have length : text.length = before.length + (behind.length + 1) := by
    rw [split, List.length_append, List.length_cons]
  rw [List.length_cons] at two
  unfold scanVariable variableToken
  rw [if_neg (by omega), split, item_append position, Returns.some_bind, ← split, List.head?_cons, List.tail_cons]
  by_cases brace : c = leftBrace
  · have split' : text = before ++ [c] ++ behind := by rw [split, List.append_cons]
    rw [if_pos brace, if_pos (by rw [brace]),
      scanWhile_eq _ split' (by rw [List.length_append, List.length_singleton]; omega), Returns.some_bind]
    dsimp only
    rcases bracedToken_cases behind with ⟨none, eq⟩ | ⟨after, parts, eq⟩
    · have all : behind.takeWhile (· != rightBrace) = behind := by
        have whole := List.takeWhile_append_dropWhile (p := (· != rightBrace)) (l := behind)
        rwa [none, List.append_nil] at whole
      rw [all, if_neg (by omega), eq]
      refine congrArg some (Prod.ext ?_ rfl)
      rw [List.length_nil, List.length_cons]
      dsimp only
      omega
    · have lengths := congrArg List.length parts
      rw [List.length_append, List.length_cons] at lengths
      rw [if_pos (by omega), eq]
      refine congrArg some (Prod.ext ?_ rfl)
      rw [List.length_cons]
      dsimp only
      omega
  · rw [if_neg brace, if_neg (by simpa using brace), scanWhile_eq _ split position]
    have whole := congrArg List.length
      (List.takeWhile_append_dropWhile (p := Character.isLetterOrDigit) (l := c :: behind))
    rw [List.length_append] at whole
    dsimp only [Token.varname, Token.written]
    congr 2
    omega

variable {environment : List Character → Option (List Character)}

/-- What the scan makes of the last piece: it reads behind a dollar at the end, and leaves the last
character behind a dollar as it is. -/
def Token.lastExpansion (environment : List Character → Option (List Character)) : Token → Option (List Character)
  | .named [] => none
  | .named [c] => some [dollar, c]
  | t => some (t.expansion environment)

/-- What the scan makes of the pieces. -/
def scanned (environment : List Character → Option (List Character)) : List Token → Option (List Character)
  | [] => some []
  | [t] => t.lastExpansion environment
  | t :: t' :: ts => (scanned environment (t' :: ts)).map (t.expansion environment ++ ·)

theorem scanned_cons {t : Token} {ts : List Token}
    (same : ts = [] → t.lastExpansion environment = some (t.expansion environment)) :
    scanned environment (t :: ts) = (scanned environment ts).map (t.expansion environment ++ ·) := by
  cases ts with
  | nil => simpa [scanned] using same rfl
  | cons => rfl

theorem tokens_ne_nil {c : Character} : tokens (c :: rest) ≠ [] := by
  intro none
  have parts := flatMap_written_tokens (c :: rest)
  rw [none] at parts
  cases parts

/-- Two characters, of which the first is a dollar, are scanned one by one. -/
theorem scanned_two (c : Character) : scanned environment (tokens [dollar, c]) =
    (scanned environment (tokens [c])).map ([dollar] ++ ·) := by
  rw [tokens_dollar]
  by_cases again : c = dollar
  · have first : variableToken [c] = (.named [], [c]) := by rw [again]; rfl
    rw [first, again, tokens_dollar]
    rfl
  rw [tokens_character [] again, tokens_nil]
  by_cases brace : c = leftBrace
  · have first : variableToken [c] = (.unterminated [], []) := by rw [brace]; rfl
    rw [first, tokens_nil, brace]
    rfl
  have noBrace : ¬[c].head? = some leftBrace := by simpa using brace
  unfold variableToken
  rw [if_neg noBrace]
  cases name : c.isLetterOrDigit with
  | true =>
    rw [List.takeWhile_cons_of_pos name, List.dropWhile_cons_of_pos name]
    dsimp only
    rw [List.dropWhile_nil, tokens_nil]
    rfl
  | false =>
    rw [List.takeWhile_cons_of_neg (by rw [name]; decide), List.dropWhile_cons_of_neg (by rw [name]; decide)]
    dsimp only
    rw [tokens_character [] again, tokens_nil]
    rfl

/-- A piece of three characters or more is replaced as it should be, also at the end. -/
theorem lastExpansion_long {t : Token} (long : 2 < t.written.length) :
    t.lastExpansion environment = some (t.expansion environment) := by
  cases t with
  | named name =>
    match name, long with
    | _ :: _ :: _, _ => rfl
  | _ => rfl

theorem substitute_variableToken (text : List Character) :
    substitute environment (variableToken text).1.varname (variableToken text).1.written =
      (variableToken text).1.expansion environment := by
  cases (variableToken text).1 <;> rfl

theorem untilLoop_expandRound (split : text = before ++ rest) (position : p = before.length + 1)
    (new : List Character) {fuel : ℕ} (enough : rest.length ≤ fuel) :
    untilLoop (fun ((p, _) : Int × List Character) => some (decide (p > text.length)))
      (fun (p, new) => expandRound environment text p new) fuel (p, new) =
      (scanned environment (tokens rest)).map fun out => ((text.length : Int) + 1, new ++ out) := by
  induction fuel generalizing before rest p new with
  | zero =>
    obtain rfl : rest = [] := List.eq_nil_of_length_eq_zero (by omega)
    rw [List.append_nil] at split
    rw [untilLoop_stopped (by dsimp only; rw [decide_eq_true (by rw [split]; omega)]), tokens_nil, position, split]
    exact congrArg (fun out => some ((before.length : Int) + 1, out)) (List.append_nil _).symm
  | succ fuel ih =>
    have length : text.length = before.length + rest.length := by rw [split, List.length_append]
    cases rest with
    | nil =>
      rw [List.append_nil] at split
      rw [untilLoop_stopped (by dsimp only; rw [decide_eq_true (by rw [split]; omega)]), tokens_nil, position, split]
      exact congrArg (fun out => some ((before.length : Int) + 1, out)) (List.append_nil _).symm
    | cons c rest =>
      rw [List.length_cons] at enough length
      have here : item text p = some c := by rw [split]; exact item_append position c
      rw [untilLoop]
      dsimp only
      rw [Returns.some_bind, if_neg (by rw [decide_eq_true_eq]; omega)]
      by_cases first : c = dollar
      · rw [first] at split here ⊢
        have split' : text = before ++ [dollar] ++ rest := by rw [split, List.append_cons]
        have position' : p + 1 = (before ++ [dollar]).length + 1 := by
          rw [List.length_append, List.length_singleton]
          omega
        unfold expandRound
        rw [here, Returns.some_bind, if_pos rfl]
        cases rest with
        | nil =>
          have nothing : scanVariable text (p + 1) = none := by
            unfold scanVariable
            rw [if_neg (by rw [length, List.length_nil]; omega),
              item_last (by rw [length, List.length_nil]; omega)]
            rfl
          have last : variableToken [] = (.named [], []) := rfl
          rw [nothing, tokens_dollar, last, tokens_nil]
          rfl
        | cons d rest =>
          cases rest with
          | nil =>
            rw [List.length_singleton] at length
            have lone : scanVariable text (p + 1) = some (p + 1, [], [dollar]) := if_pos (by omega)
            rw [lone, Returns.some_bind]
            refine Eq.trans (ih split' position' (new ++ [dollar]) (Nat.le_of_succ_le_succ enough)) ?_
            rw [scanned_two]
            cases scanned environment (tokens [d]) <;> simp
          | cons d' rest =>
            have parts := written_variableToken (d :: d' :: rest)
            have lengths := congrArg List.length parts
            rw [List.length_append, List.length_cons, List.length_cons, List.length_cons] at lengths
            rw [List.length_cons, List.length_cons] at length enough
            rw [scanVariable_eq split' position' (by simp), Returns.some_bind]
            have rest' : text = before ++ (variableToken (d :: d' :: rest)).1.written ++
                (variableToken (d :: d' :: rest)).2 := by
              rw [split', List.append_assoc, List.append_assoc, parts]
              rfl
            have positive := (variableToken (d :: d' :: rest)).1.written_pos
            refine Eq.trans (ih rest' ?_ _ (by omega)) ?_
            · rw [List.length_append, List.length_cons, List.length_cons]
              omega
            · rw [substitute_variableToken, tokens_dollar, scanned_cons fun all => lastExpansion_long ?_]
              · cases scanned environment (tokens (variableToken (d :: d' :: rest)).2) <;> simp
              · have none : (variableToken (d :: d' :: rest)).2 = [] := by
                  cases eq : (variableToken (d :: d' :: rest)).2 with
                  | nil => rfl
                  | cons => exact absurd (eq ▸ all) tokens_ne_nil
                rw [none, List.length_nil] at lengths
                omega
      · have next := @ih (before ++ [c]) rest (p + 1) (by rw [split, List.append_cons])
          (by rw [List.length_append, List.length_singleton]; omega) (new ++ [c]) (by omega)
        have round : expandRound environment text p new = some (p + 1, new ++ [c]) := by
          unfold expandRound
          rw [here, Returns.some_bind, if_neg first]
          rfl
        rw [round, Returns.some_bind]
        refine next.trans ?_
        rw [tokens_character rest first, scanned_cons fun _ => rfl]
        cases scanned environment (tokens rest) <;> simp [Token.expansion]

theorem expandVariables_eq (text : List Character) :
    expandVariables environment text = scanned environment (tokens text) := by
  have run := @untilLoop_expandRound text [] text 1 environment rfl rfl [] text.length (Nat.le_refl _)
  unfold expandVariables
  rw [run]
  cases scanned environment (tokens text) <;> rfl

/-- The last piece is not a dollar alone, nor a dollar with one letter or digit that is the name of a
variable (unless its value is what is written there). -/
def EndsRight (environment : List Character → Option (List Character)) (text : List Character) : Prop :=
  ∀ t ∈ (tokens text).getLast?, t ≠ .named [] ∧
    ∀ c value, t = .named [c] → environment [c] = some value → value = [dollar, c]

theorem lastExpansion_iff (t : Token) : t.lastExpansion environment = some (t.expansion environment) ↔
    t ≠ .named [] ∧ ∀ c value, t = .named [c] → environment [c] = some value → value = [dollar, c] := by
  by_cases named : ∃ name, t = .named name
  · obtain ⟨name, rfl⟩ := named
    match name with
    | [] => exact ⟨nofun, fun right => absurd rfl right.1⟩
    | [c] =>
      have last : (Token.named [c]).lastExpansion environment = some [dollar, c] := rfl
      have right : (Token.named [c]).expansion environment = (environment [c]).getD [dollar, c] := rfl
      rw [last, right, Option.some_inj]
      constructor
      · intro same
        refine ⟨nofun, fun d value eq found => ?_⟩
        cases eq
        rwa [found, Option.getD_some, eq_comm] at same
      · intro kept
        cases found : environment [c] with
        | none => rfl
        | some value => exact (kept.2 c value rfl found).symm
    | _ :: _ :: _ => exact ⟨fun _ => ⟨nofun, nofun⟩, fun _ => rfl⟩
  · have other : t.lastExpansion environment = some (t.expansion environment) := by
      cases t with
      | named name => exact absurd ⟨name, rfl⟩ named
      | _ => rfl
    exact iff_of_true other ⟨fun eq => named ⟨_, eq⟩, fun c _ eq => absurd ⟨_, eq⟩ named⟩

theorem scanned_iff (ts : List Token) : scanned environment ts = some (ts.flatMap (Token.expansion environment)) ↔
    ∀ t ∈ ts.getLast?, t.lastExpansion environment = some (t.expansion environment) := by
  induction ts with
  | nil => exact iff_of_true rfl nofun
  | cons t ts ih =>
    cases ts with
    | nil => simp [scanned]
    | cons t' ts =>
      rw [List.getLast?_cons_cons, ← ih, scanned, List.flatMap_cons]
      cases scanned environment (t' :: ts) <;> simp

/-- **The expansion of variables.**  The scan reads only characters of the text and makes of it what it
is to become, exactly when the text does not end with a dollar, nor with a dollar and a variable of one
letter. -/
theorem expandVariables_iff (environment : List Character → Option (List Character)) (text : List Character) :
    Returns (expandVariables environment text) (· = expanded environment text) ↔ EndsRight environment text := by
  have told : Returns (expandVariables environment text) (· = expanded environment text) ↔
      scanned environment (tokens text) = some (expanded environment text) := by
    rw [expandVariables_eq]
    cases scanned environment (tokens text) <;> simp
  rw [told]
  unfold expanded EndsRight
  rw [scanned_iff]
  exact forall₂_congr fun t _ => lastExpansion_iff t

/-- A text that is a dollar: the scan reads behind its end.  A variable of one letter at the end is not
replaced. -/
theorem not_expandVariables :
    ¬Returns (expandVariables (fun _ => none) [dollar]) (· = expanded (fun _ => none) [dollar]) ∧
      expandVariables (fun _ => some [47]) [dollar, 104] = some [dollar, 104] := by
  refine ⟨fun returns => ?_, rfl⟩
  obtain ⟨new, run, -⟩ := returns
  cases run

end Scan

end PathName

end Liberty
