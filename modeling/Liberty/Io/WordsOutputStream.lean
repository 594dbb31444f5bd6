import Liberty.Library.Returns
import Liberty.Text.RealLiteral

/-!
# WORDS_OUTPUT_STREAM

The filter keeps a word and the separators before it until it knows whether they fit on the line.  `pos`
bounds the columns that the line has, but for tabulations that are wrapped together with a word: these
reach the underlying stream as they are, as do separators that are left when the filter is disconnected.
-/

namespace Liberty

/-- The attributes of the filter; `stream` is what the underlying stream has been given. -/
structure WordsOutputStream where
  width : Int
  word : List Character
  spaces : List Character
  pos : Int
  tab : Int
  stream : List Character

namespace WordsOutputStream

def blank : Character := 32
def tabulation : Character := 9
def newLine : Character := 10

def make (width : Int) : WordsOutputStream :=
  ⟨width, [], [], 0, 0, []⟩

/-- `stream.filtered_put_character` -/
def put (s : WordsOutputStream) (c : Character) : WordsOutputStream :=
  { s with stream := s.stream ++ [c] }

/-- The branch of `flush_word` for a tabulation that fits. -/
def putTab (s : WordsOutputStream) : Option WordsOutputStream :=
  untilLoop (fun s => some (decide (s.pos % 8 = 0)))
    (fun s => some { s.put blank with pos := s.pos + 1 }) 7 { s.put blank with pos := s.pos + 1 }

/-- The loop of `flush_word` over separators that fit. -/
def putSpaces : List Character → WordsOutputStream → Option WordsOutputStream
  | [], s => some s
  | c :: rest, s =>
    if c = tabulation then do putSpaces rest (← s.putTab)
    else putSpaces rest { s.put c with pos := s.pos + 1 }

/-- The loop of `flush_word` over separators that are wrapped. -/
def putWrapped : List Character → WordsOutputStream → WordsOutputStream
  | [], s => s
  | c :: rest, s => putWrapped rest { s with pos := s.pos + 1, stream := s.stream ++ [c] }

/-- The loops that leave `pos` alone. -/
def putAll : List Character → WordsOutputStream → WordsOutputStream
  | [], s => s
  | c :: rest, s => putAll rest (s.put c)

/-- `flush_word` up to its last loop: the separators fit together with the word, or both are wrapped. -/
def flushSpaces (s : WordsOutputStream) : Option WordsOutputStream :=
  if s.pos + s.spaces.length + s.word.length + 7 * s.tab < s.width then putSpaces s.spaces s
  else
    let s := { s.put newLine with pos := 0 }
    if s.spaces.length > 1 then
      let s := putWrapped s.spaces s
      some { s with pos := s.pos + s.spaces.length }
    else some s

def flushWord (s : WordsOutputStream) : Option WordsOutputStream := do
  let s ← s.flushSpaces
  let s := putAll s.word s
  return { s with pos := s.pos + s.word.length, tab := 0, spaces := [], word := [] }

def filteredFlush (s : WordsOutputStream) : Option WordsOutputStream :=
  if s.word ≠ [] then s.flushWord else some s

/-- The branch of `filtered_put_character` for a newline, before the newline is put. -/
def flushLine (s : WordsOutputStream) : Option WordsOutputStream :=
  if s.word ≠ [] then s.flushWord else some { s with spaces := [], tab := 0 }

def filteredPutCharacter (s : WordsOutputStream) (c : Character) : Option WordsOutputStream := do
  if c = newLine then
    let s ← s.flushLine
    return { s.put c with pos := 0 }
  else if c = tabulation then
    let s ← s.filteredFlush
    return { s with spaces := s.spaces ++ [c], tab := s.tab + 1 }
  else if c = blank ∨ c = 13 ∨ c = 0 ∨ c = 12 then
    let s ← s.filteredFlush
    return { s with spaces := s.spaces ++ [c] }
  else return { s with word := s.word ++ [c] }

def disconnect (s : WordsOutputStream) : Option WordsOutputStream :=
  if s.word ≠ [] then s.flushWord
  else some { putAll s.spaces s with spaces := [] }

/-! ## Words and lines of a text -/

inductive Token
  | word (letters : List Character)
  | newLine

/-- The tokens before the word that is being read. -/
structure Reading where
  tokens : List Token
  pending : List Character

def Reading.close (r : Reading) : List Token :=
  if r.pending = [] then r.tokens else r.tokens ++ [.word r.pending]

def Reading.read (r : Reading) (c : Character) : Reading :=
  if c = WordsOutputStream.newLine then ⟨r.close ++ [.newLine], []⟩
  else if c.isSeparator = true then ⟨r.close, []⟩
  else ⟨r.tokens, r.pending ++ [c]⟩

def reading (text : List Character) : Reading :=
  text.foldl Reading.read ⟨[], []⟩

/-- The words and the newlines of a text. -/
def tokensOf (text : List Character) : List Token :=
  (reading text).close

def Token.isWord : Token → Bool
  | .word _ => true
  | .newLine => false

/-- Newlines at most are added. -/
def Kept (tokens tokens' : List Token) : Prop :=
  tokens.Sublist tokens' ∧ tokens.filter Token.isWord = tokens'.filter Token.isWord

/-- The lines before the one that is being read. -/
structure Page where
  lines : List (List Character)
  last : List Character

def Page.read (p : Page) (c : Character) : Page :=
  if c = newLine then ⟨p.lines ++ [p.last], []⟩ else ⟨p.lines, p.last ++ [c]⟩

def page (text : List Character) : Page :=
  text.foldl Page.read ⟨[], []⟩

def linesOf (text : List Character) : List (List Character) :=
  (page text).lines ++ [(page text).last]

/-- The column after a character, with tab stops every 8 columns. -/
def column (col : Int) (c : Character) : Int :=
  if c = tabulation then (col / 8 + 1) * 8 else col + 1

def columns (line : List Character) : Int :=
  line.foldl column 0

/-- A line of `width` columns, or with a single word. -/
def Within (width : Int) (line : List Character) : Prop :=
  columns line ≤ width ∨ ∃ letters, tokensOf line = [.word letters]

/-! ## The condition -/

/-- No tabulation is wrapped with its word. -/
def FlushAllowed (s : WordsOutputStream) : Prop :=
  s.pos + s.spaces.length + s.word.length + 7 * s.tab < s.width ∨ s.spaces.length ≤ 1 ∨ s.tab = 0

def Allowed (s : WordsOutputStream) (c : Character) : Prop :=
  c.isSeparator = true → s.word ≠ [] → s.FlushAllowed

/-- The separators that are left fit on the line. -/
def DisconnectAllowed (s : WordsOutputStream) : Prop :=
  if s.word ≠ [] then s.FlushAllowed
  else s.spaces = [] ∨ s.pos + s.spaces.length + 7 * s.tab ≤ s.width

/-- The characters that have been put, each allowed in the state before it. -/
inductive Reaches (width : Int) : List Character → WordsOutputStream → Prop
  | make (positive : 0 < width) : Reaches width [] (make width)
  | put {text : List Character} {s s' : WordsOutputStream} {c : Character} (reaches : Reaches width text s)
    (allowed : s.Allowed c) (run : s.filteredPutCharacter c = some s') : Reaches width (text ++ [c]) s'

/-! ## What is emitted -/

/-- A separator that does not end the line. -/
def Gap (c : Character) : Prop :=
  c.isSeparator = true ∧ c ≠ newLine

def advance (s : WordsOutputStream) (text : List Character) : WordsOutputStream :=
  { s with pos := s.pos + text.length, stream := s.stream ++ text }

variable {s s' : WordsOutputStream} {text gaps letters : List Character} {c : Character}

theorem advance_nil : s.advance [] = s := by
  unfold advance
  rw [List.append_nil, List.length_nil, Int.natCast_zero, Int.add_zero]

theorem advance_advance (left right : List Character) :
    (s.advance left).advance right = s.advance (left ++ right) := by
  unfold advance
  rw [List.append_assoc, List.length_append, Int.natCast_add, Int.add_assoc]

theorem putWrapped_eq (text : List Character) : putWrapped text s = s.advance text := by
  induction text generalizing s with
  | nil => exact advance_nil.symm
  | cons c rest ih => exact ih.trans (advance_advance [c] rest)

theorem putAll_eq (text : List Character) : putAll text s = { s with stream := s.stream ++ text } := by
  induction text generalizing s with
  | nil => rw [List.append_nil]; rfl
  | cons c rest ih =>
    refine ih.trans ?_
    unfold put
    rw [List.append_assoc]
    rfl

theorem returns_putTab : Returns s.putTab fun s' =>
    ∃ n : ℕ, 1 ≤ n ∧ n ≤ 8 ∧ s' = s.advance (List.replicate n blank) := by
  unfold putTab
  refine returns_untilLoop
    (fun s' => ∃ n : ℕ, 1 ≤ n ∧ (n : Int) + (-s'.pos) % 8 ≤ 8 ∧ s' = s.advance (List.replicate n blank))
    (fun s' => ((-s'.pos) % 8).toNat) ⟨1, Nat.le_refl 1, ?_, rfl⟩ ?_ ?_
  · dsimp only
    omega
  · dsimp only
    omega
  · intro s' ⟨n, one, few, same⟩
    rw [Returns.some_iff]
    split
    case isTrue stopped =>
        exact ⟨n, one, by omega, same⟩
    case isFalse going =>
        have going' : s'.pos % 8 ≠ 0 := fun zero => going (decide_eq_true zero)
        rw [Returns.some_iff]
        refine ⟨⟨n + 1, by omega, ?_, ?_⟩, ?_⟩
        · dsimp only
          omega
        · rw [List.replicate_succ', ← advance_advance, ← same]
          rfl
        · dsimp only
          omega

theorem returns_putSpaces (separates : ∀ c ∈ gaps, Gap c) : Returns (putSpaces gaps s) fun s' =>
    ∃ seps, s' = s.advance seps ∧ (∀ c ∈ seps, Gap c ∧ c ≠ tabulation) ∧ gaps.length ≤ seps.length ∧
      seps.length ≤ gaps.length + 7 * gaps.count tabulation := by
  induction gaps generalizing s with
  | nil =>
    refine Returns.some_iff.mpr ⟨[], advance_nil.symm, List.forall_mem_nil _, ?_, ?_⟩
    · exact Nat.le_refl 0
    · exact Nat.le_refl 0
  | cons c rest ih =>
    obtain ⟨here, later⟩ := List.forall_mem_cons.mp separates
    unfold putSpaces
    rw [List.length_cons, List.count_cons]
    split
    case isTrue tab =>
        refine Returns.bind returns_putTab fun s' ⟨n, one, few, same⟩ => ?_
        refine (ih later).mono fun s'' ⟨seps, same', gaps', more, less⟩ => ?_
        refine ⟨List.replicate n blank ++ seps, by rw [same', same, advance_advance], ?_, ?_, ?_⟩
        · intro c member
          rcases List.mem_append.mp member with first | second
          · rw [(List.mem_replicate.mp first).2]
            exact ⟨⟨by decide, by decide⟩, by decide⟩
          · exact gaps' c second
        · rw [List.length_append, List.length_replicate]
          omega
        · rw [List.length_append, List.length_replicate, if_pos (beq_iff_eq.mpr tab)]
          omega
    case isFalse other =>
        refine (ih later).mono fun s'' ⟨seps, same', gaps', more, less⟩ => ?_
        refine ⟨c :: seps, same'.trans (advance_advance (s := s) [c] seps),
          List.forall_mem_cons.mpr ⟨⟨here, other⟩, gaps'⟩, Nat.succ_le_succ more, ?_⟩
        rw [List.length_cons]
        omega

/-- What is written before the word, with the position after the word. -/
inductive Emitted (s : WordsOutputStream) : List Character → Int → Prop
  | fits {seps : List Character} (less : s.pos + s.spaces.length + s.word.length + 7 * s.tab < s.width)
    (gaps : ∀ c ∈ seps, Gap c ∧ c ≠ tabulation) (more : s.spaces.length ≤ seps.length)
    (few : seps.length ≤ s.spaces.length + 7 * s.tab) :
    Emitted s seps (s.pos + seps.length + s.word.length)
  | wraps {kept : List Character} (much : ¬s.pos + s.spaces.length + s.word.length + 7 * s.tab < s.width)
    (same : kept = if s.spaces.length > 1 then s.spaces else []) :
    Emitted s (newLine :: kept) (2 * kept.length + s.word.length)

theorem returns_flushWord (separates : ∀ c ∈ s.spaces, Gap c)
    (tabs : s.tab = s.spaces.count tabulation) : Returns s.flushWord fun s' => ∃ before pos,
      Emitted s before pos ∧ s' = ⟨s.width, [], [], pos, 0, s.stream ++ before ++ s.word⟩ := by
  unfold flushWord
  rw [Returns.bind_iff]
  unfold flushSpaces
  by_cases less : s.pos + s.spaces.length + s.word.length + 7 * s.tab < s.width
  · rw [if_pos less]
    refine (returns_putSpaces separates).mono fun s' ⟨seps, same, gaps, more, few⟩ => ?_
    rw [Returns.pure_iff, putAll_eq, same]
    exact ⟨seps, _, .fits less gaps more (by omega), rfl⟩
  · rw [if_neg less]
    dsimp only
    by_cases several : s.spaces.length > 1
    · rw [if_pos (show (s.put newLine).spaces.length > 1 from several), Returns.some_iff, Returns.pure_iff,
        putAll_eq, putWrapped_eq]
      refine ⟨_, _, .wraps less (if_pos several).symm, ?_⟩
      unfold advance put
      rw [WordsOutputStream.mk.injEq]
      refine ⟨rfl, rfl, rfl, ?_, rfl, ?_⟩
      · dsimp only
        omega
      · rw [List.append_assoc s.stream]
        rfl
    · rw [if_neg (show ¬(s.put newLine).spaces.length > 1 from several), Returns.some_iff, Returns.pure_iff,
        putAll_eq]
      exact ⟨_, _, .wraps less (if_neg several).symm, rfl⟩

/-! ## Reading what has been written -/

theorem reading_append (left right : List Character) :
    reading (left ++ right) = right.foldl Reading.read (reading left) :=
  List.foldl_append

theorem page_append (left right : List Character) :
    page (left ++ right) = right.foldl Page.read (page left) :=
  List.foldl_append

theorem close_nil (tokens : List Token) : (Reading.mk tokens []).close = tokens :=
  if_pos rfl

theorem close_word (tokens : List Token) (some : letters ≠ []) :
    (Reading.mk tokens letters).close = tokens ++ [.word letters] :=
  if_neg some

theorem read_newLine (r : Reading) : r.read newLine = ⟨r.close ++ [.newLine], []⟩ :=
  if_pos rfl

theorem Gap.read (gap : Gap c) (r : Reading) : r.read c = ⟨r.close, []⟩ := by
  unfold Reading.read
  rw [if_neg gap.2, if_pos gap.1]

/-- Separators end the word that is being read. -/
theorem foldl_read_gaps (separates : ∀ c ∈ gaps, Gap c) {r : Reading} (ends : gaps ≠ [] ∨ r.pending = []) :
    gaps.foldl Reading.read r = ⟨r.close, []⟩ := by
  induction gaps generalizing r with
  | nil =>
    obtain ⟨tokens, pending⟩ := r
    have none : pending = [] := ends.resolve_left fun some => some rfl
    rw [none, close_nil]
    rfl
  | cons c rest ih =>
    obtain ⟨here, later⟩ := List.forall_mem_cons.mp separates
    rw [List.foldl_cons, here.read, ih later (.inr rfl), close_nil]

theorem foldl_read_word (word : ∀ c ∈ letters, c.isSeparator = false) (r : Reading) :
    letters.foldl Reading.read r = ⟨r.tokens, r.pending ++ letters⟩ := by
  induction letters generalizing r with
  | nil => rw [List.append_nil]; rfl
  | cons c rest ih =>
    obtain ⟨here, later⟩ := List.forall_mem_cons.mp word
    have notNewLine : c ≠ newLine := by
      intro same
      rw [same] at here
      exact absurd here (by decide)
    have run : r.read c = ⟨r.tokens, r.pending ++ [c]⟩ := by
      unfold Reading.read
      rw [if_neg notNewLine, here, if_neg Bool.false_ne_true]
    rw [List.foldl_cons, run, ih later, List.append_assoc]
    rfl

/-- A text without newlines goes on with the last line. -/
theorem foldl_page (single : newLine ∉ text) (p : Page) :
    text.foldl Page.read p = ⟨p.lines, p.last ++ text⟩ := by
  induction text generalizing p with
  | nil => rw [List.append_nil]; rfl
  | cons c rest ih =>
    have run : p.read c = ⟨p.lines, p.last ++ [c]⟩ :=
      if_neg fun (same : c = newLine) => single (same ▸ List.mem_cons_self)
    rw [List.foldl_cons, run, ih fun later => single (List.mem_cons_of_mem c later), List.append_assoc]
    rfl

theorem page_newLine (left right : List Character) (single : newLine ∉ right) :
    page (left ++ newLine :: right) = ⟨(page left).lines ++ [(page left).last], right⟩ := by
  rw [page_append, List.foldl_cons]
  exact foldl_page single _

theorem newLine_notMem_gaps (separates : ∀ c ∈ gaps, Gap c) : newLine ∉ gaps :=
  fun member => (separates newLine member).2 rfl

theorem newLine_notMem_word (word : ∀ c ∈ letters, c.isSeparator = false) : newLine ∉ letters :=
  fun member => absurd (word newLine member) (by decide)

/-! ## Columns -/

theorem foldl_column_le (line : List Character) (col : Int) :
    line.foldl column col ≤ col + line.length + 7 * line.count tabulation := by
  induction line generalizing col with
  | nil =>
    rw [List.foldl_nil, List.length_nil, List.count_nil]
    omega
  | cons c rest ih =>
    have later := ih (column col c)
    rw [List.foldl_cons, List.length_cons, List.count_cons]
    by_cases same : c = tabulation
    · have here : column col c = (col / 8 + 1) * 8 := if_pos same
      rw [if_pos (beq_iff_eq.mpr same)]
      omega
    · have here : column col c = col + 1 := if_neg same
      rw [if_neg (fun equal => same (beq_iff_eq.mp equal))]
      omega

theorem columns_append_le (line rest : List Character) :
    columns (line ++ rest) ≤ columns line + rest.length + 7 * rest.count tabulation := by
  unfold columns
  rw [List.foldl_append]
  exact foldl_column_le rest _

/-! ## The invariant -/

structure Sound (width : Int) (text : List Character) (s : WordsOutputStream) : Prop where
  positive : 0 < width
  width_eq : s.width = width
  separates : ∀ c ∈ s.spaces, Gap c
  tabs : s.tab = s.spaces.count tabulation
  letters : ∀ c ∈ s.word, c.isSeparator = false
  pending : (reading text).pending = s.word
  kept : Kept (reading text).tokens (tokensOf s.stream)
  apart : (reading s.stream).pending ≠ [] → s.spaces ≠ []
  lines : ∀ line ∈ linesOf s.stream, Within width line
  column : columns (page s.stream).last ≤ s.pos

/-- The state after the word has been written, or when there is none. -/
structure Settled (width : Int) (text : List Character) (s : WordsOutputStream) : Prop where
  positive : 0 < width
  width_eq : s.width = width
  separates : ∀ c ∈ s.spaces, Gap c
  tabs : s.tab = s.spaces.count tabulation
  word_eq : s.word = []
  kept : Kept (tokensOf text) (tokensOf s.stream)
  lines : ∀ line ∈ linesOf s.stream, Within width line
  column : columns (page s.stream).last ≤ s.pos

variable {width pos : Int} {before : List Character} {left middle right : List Token}

theorem Kept.trans (h : Kept left middle) (h' : Kept middle right) : Kept left right :=
  ⟨h.1.trans h'.1, h.2.trans h'.2⟩

theorem Kept.append (h : Kept left right) (tokens : List Token) : Kept (left ++ tokens) (right ++ tokens) := by
  refine ⟨List.Sublist.append h.1 (List.Sublist.refl tokens), ?_⟩
  rw [List.filter_append, List.filter_append, h.2]

theorem Kept.newLine (tokens : List Token) : Kept tokens (tokens ++ [.newLine]) := by
  refine ⟨List.sublist_append_left tokens _, ?_⟩
  rw [List.filter_append]
  exact (List.append_nil _).symm

theorem Sound.settled (h : Sound width text s) (none : s.word = []) : Settled width text s := by
  refine ⟨h.positive, h.width_eq, h.separates, h.tabs, none, ?_, h.lines, h.column⟩
  have kept := h.kept
  have all : tokensOf text = (reading text).tokens := if_pos (h.pending.trans none)
  rw [all]
  exact kept

/-- The separators before a word, with the newline that is added, end what has been written. -/
theorem Sound.reading_emitted (h : Sound width text s) (emitted : Emitted s before pos) :
    ∃ tokens, reading (s.stream ++ before) = ⟨tokens, []⟩ ∧ Kept (tokensOf s.stream) tokens := by
  cases emitted with
  | fits less gaps more few =>
    refine ⟨tokensOf s.stream, ?_, List.Sublist.refl _, rfl⟩
    rw [reading_append]
    refine foldl_read_gaps (fun c member => (gaps c member).1) ?_
    by_cases pending : (reading s.stream).pending = []
    · exact .inr pending
    · have some := List.length_pos_iff.mpr (h.apart pending)
      exact .inl (List.length_pos_iff.mp (by omega))
  | @wraps kept much same =>
    have separates : ∀ c ∈ kept, Gap c := by
      rw [same]
      split
      · exact h.separates
      · exact List.forall_mem_nil _
    refine ⟨tokensOf s.stream ++ [.newLine], ?_, .newLine _⟩
    rw [reading_append, List.foldl_cons, read_newLine, foldl_read_gaps separates (.inr rfl), close_nil]
    rfl

theorem Sound.kept_flushed (h : Sound width text s) (some : s.word ≠ []) (emitted : Emitted s before pos) :
    Kept (tokensOf text) (tokensOf (s.stream ++ before ++ s.word)) := by
  obtain ⟨tokens, ended, kept⟩ := h.reading_emitted emitted
  have read : tokensOf text = (reading text).tokens ++ [.word s.word] := by
    unfold tokensOf Reading.close
    rw [h.pending, if_neg some]
  have written : tokensOf (s.stream ++ before ++ s.word) = tokens ++ [.word s.word] := by
    unfold tokensOf
    rw [reading_append, ended, foldl_read_word h.letters]
    exact close_word tokens some
  rw [read, written]
  exact (h.kept.trans kept).append _

/-- The last line after the word, and the lines before it. -/
theorem Sound.within_flushed (h : Sound width text s) (some : s.word ≠ []) (allowed : s.FlushAllowed)
    (emitted : Emitted s before pos) :
    (∀ line ∈ linesOf (s.stream ++ before ++ s.word), Within width line) ∧
      columns (page (s.stream ++ before ++ s.word)).last ≤ pos := by
  have wordSingle := newLine_notMem_word h.letters
  have noTab : s.word.count tabulation = 0 :=
    List.count_eq_zero.mpr fun member => absurd (h.letters _ member) (by decide)
  have here := h.column
  have lines := h.lines
  rw [List.append_assoc]
  cases emitted with
  | fits less gaps more few =>
    have noTab' : before.count tabulation = 0 := List.count_eq_zero.mpr fun member => (gaps _ member).2 rfl
    have single : newLine ∉ before ++ s.word := fun member => (List.mem_append.mp member).elim
      (newLine_notMem_gaps fun c within => (gaps c within).1) wordSingle
    have most := columns_append_le (page s.stream).last (before ++ s.word)
    rw [List.length_append, List.count_append, noTab, noTab'] at most
    unfold linesOf at lines ⊢
    rw [page_append, foldl_page single]
    refine ⟨?_, by dsimp only; omega⟩
    intro line member
    rcases List.mem_append.mp member with old | new
    · exact lines line (List.mem_append_left _ old)
    · rw [List.mem_singleton.mp new]
      have bound := h.width_eq
      refine .inl ?_
      dsimp only
      omega
  | @wraps kept much same =>
    have separates : ∀ c ∈ kept, Gap c := by
      rw [same]
      split
      · exact h.separates
      · exact List.forall_mem_nil _
    have noTab' : kept.count tabulation = 0 := by
      rw [same]
      split
      case isTrue several =>
          have none := (allowed.resolve_left much).resolve_left (by omega)
          have tabs := h.tabs
          omega
      case isFalse few => rfl
    have single : newLine ∉ kept ++ s.word := fun member => (List.mem_append.mp member).elim
      (newLine_notMem_gaps separates) wordSingle
    have most := columns_append_le [] (kept ++ s.word)
    rw [List.nil_append, List.length_append, List.count_append, noTab, noTab'] at most
    have alone : tokensOf (kept ++ s.word) = [.word s.word] := by
      unfold tokensOf
      rw [reading_append, reading, foldl_read_gaps separates (.inr rfl), close_nil, foldl_read_word h.letters]
      exact close_word [] some
    unfold linesOf at lines ⊢
    rw [List.cons_append, page_newLine _ _ single]
    refine ⟨?_, ?_⟩
    · intro line member
      rcases List.mem_append.mp member with old | new
      · exact lines line old
      · rw [List.mem_singleton.mp new]
        exact .inr ⟨s.word, alone⟩
    · have none : columns [] = 0 := rfl
      dsimp only
      omega

theorem Sound.returns_flushWord (h : Sound width text s) (some : s.word ≠ []) (allowed : s.FlushAllowed) :
    Returns s.flushWord (Settled width text) := by
  refine (WordsOutputStream.returns_flushWord h.separates h.tabs).mono
    fun s' ⟨before, pos, emitted, same⟩ => ?_
  have ⟨lines, column⟩ := h.within_flushed some allowed emitted
  rw [same]
  exact ⟨h.positive, h.width_eq, List.forall_mem_nil _, rfl, rfl, h.kept_flushed some emitted, lines, column⟩

/-! ## Characters -/

theorem Settled.endLine (h : Settled width text s) :
    Sound width (text ++ [newLine]) { s.put newLine with pos := 0 } := by
  have read : reading (text ++ [newLine]) = ⟨tokensOf text ++ [.newLine], []⟩ := by
    rw [reading_append]
    exact read_newLine _
  have written : reading (s.stream ++ [newLine]) = ⟨tokensOf s.stream ++ [.newLine], []⟩ := by
    rw [reading_append]
    exact read_newLine _
  have paged := page_newLine s.stream [] List.not_mem_nil
  have lines := h.lines
  unfold linesOf at lines
  refine ⟨h.positive, h.width_eq, h.separates, h.tabs, ?_, ?_, ?_, ?_, ?_, ?_⟩
  · change ∀ c ∈ s.word, _
    rw [h.word_eq]
    exact List.forall_mem_nil _
  · rw [read]
    exact h.word_eq.symm
  · change Kept _ (tokensOf (s.stream ++ [WordsOutputStream.newLine]))
    have closed : tokensOf (s.stream ++ [WordsOutputStream.newLine]) = tokensOf s.stream ++ [.newLine] := by
      rw [tokensOf, written, close_nil]
    rw [read, closed]
    exact h.kept.append _
  · change (reading (s.stream ++ [WordsOutputStream.newLine])).pending ≠ [] → _
    rw [written]
    exact fun some => absurd rfl some
  · change ∀ line ∈ linesOf (s.stream ++ [WordsOutputStream.newLine]), _
    unfold linesOf
    rw [paged]
    intro line member
    rcases List.mem_append.mp member with old | new
    · exact lines line old
    · rw [List.mem_singleton.mp new]
      exact .inl (Int.le_of_lt h.positive)
  · change columns (page (s.stream ++ [WordsOutputStream.newLine])).last ≤ 0
    rw [paged]
    exact Int.le_refl 0

theorem Settled.gap (h : Settled width text s) (gap : Gap c) {tab : Int}
    (tabs : tab = (s.spaces ++ [c]).count tabulation) :
    Sound width (text ++ [c]) { s with spaces := s.spaces ++ [c], tab := tab } := by
  have read : reading (text ++ [c]) = ⟨tokensOf text, []⟩ := by
    rw [reading_append]
    exact gap.read _
  refine ⟨h.positive, h.width_eq, ?_, tabs, ?_, ?_, ?_, ?_, h.lines, h.column⟩
  · intro b member
    rcases List.mem_append.mp member with old | new
    · exact h.separates b old
    · rw [List.mem_singleton.mp new]
      exact gap
  · rw [h.word_eq]
    exact List.forall_mem_nil _
  · rw [read, h.word_eq]
  · rw [read]
    exact h.kept
  · exact fun _ => List.append_ne_nil_of_right_ne_nil _ (List.cons_ne_nil c [])

/-- The word is written first, if there is one. -/
theorem Sound.returns_filteredFlush (h : Sound width text s) (allowed : s.word ≠ [] → s.FlushAllowed) :
    Returns s.filteredFlush (Settled width text) := by
  unfold filteredFlush
  rw [Returns.ite_iff]
  constructor
  · exact fun some => h.returns_flushWord some (allowed some)
  · exact fun none => Returns.some_iff.mpr (h.settled (Decidable.not_not.mp none))

theorem Sound.returns_flushLine (h : Sound width text s) (allowed : s.word ≠ [] → s.FlushAllowed) :
    Returns s.flushLine (Settled width text) := by
  unfold flushLine
  rw [Returns.ite_iff]
  constructor
  · exact fun some => h.returns_flushWord some (allowed some)
  · intro none
    have settled := h.settled (Decidable.not_not.mp none)
    exact Returns.some_iff.mpr ⟨h.positive, h.width_eq, List.forall_mem_nil _, rfl, settled.word_eq,
      settled.kept, h.lines, h.column⟩

theorem Sound.letter (h : Sound width text s) (letter : c.isSeparator = false) :
    Sound width (text ++ [c]) { s with word := s.word ++ [c] } := by
  have read : reading (text ++ [c]) = ⟨(reading text).tokens, (reading text).pending ++ [c]⟩ := by
    rw [reading_append]
    exact foldl_read_word (List.forall_mem_singleton.mpr letter) _
  refine ⟨h.positive, h.width_eq, h.separates, h.tabs, ?_, ?_, ?_, h.apart, h.lines, h.column⟩
  · intro b member
    rcases List.mem_append.mp member with old | new
    · exact h.letters b old
    · rw [List.mem_singleton.mp new]
      exact letter
  · rw [read, h.pending]
  · rw [read]
    exact h.kept

theorem Sound.returns_filteredPutCharacter (h : Sound width text s) (allowed : s.Allowed c) :
    Returns (s.filteredPutCharacter c) (Sound width (text ++ [c])) := by
  unfold filteredPutCharacter
  by_cases ends : c = newLine
  · rw [if_pos ends, ends]
    refine Returns.bind (h.returns_flushLine (allowed (ends ▸ rfl))) fun s' settled => ?_
    exact Returns.pure_iff.mpr settled.endLine
  · rw [if_neg ends]
    by_cases tabulates : c = tabulation
    · have separator : c.isSeparator = true := tabulates ▸ rfl
      rw [if_pos tabulates]
      refine Returns.bind (h.returns_filteredFlush (allowed separator)) fun s' settled => ?_
      refine Returns.pure_iff.mpr (settled.gap ⟨separator, ends⟩ ?_)
      rw [settled.tabs, List.count_append, tabulates]
      rfl
    · rw [if_neg tabulates]
      have separator_iff : c.isSeparator = true ↔ c = blank ∨ c = 13 ∨ c = 0 ∨ c = 12 := by
        unfold Character.isSeparator
        simp only [Bool.or_eq_true, beq_iff_eq]
        constructor
        · rintro (((((eq | eq) | eq) | eq) | eq) | eq)
          · exact .inl eq
          · exact absurd eq tabulates
          · exact absurd eq ends
          · exact .inr (.inl eq)
          · exact .inr (.inr (.inl eq))
          · exact .inr (.inr (.inr eq))
        · rintro (eq | eq | eq | eq) <;> simp [eq, blank]
      by_cases separates : c = blank ∨ c = 13 ∨ c = 0 ∨ c = 12
      · have separator := separator_iff.mpr separates
        rw [if_pos separates]
        refine Returns.bind (h.returns_filteredFlush (allowed separator)) fun s' settled => ?_
        refine Returns.pure_iff.mpr (settled.gap ⟨separator, ends⟩ ?_)
        rw [settled.tabs, List.count_append, List.count_singleton, if_neg (mt beq_iff_eq.mp tabulates)]
        rfl
      · rw [if_neg separates]
        exact Returns.pure_iff.mpr (h.letter (Bool.eq_false_iff.mpr (separator_iff.not.mpr separates)))

theorem Reaches.sound {text : List Character} {s : WordsOutputStream} (reaches : Reaches width text s) :
    Sound width text s := by
  induction reaches with
  | make positive =>
    refine ⟨positive, rfl, List.forall_mem_nil _, rfl, List.forall_mem_nil _, rfl, ⟨List.Sublist.refl _, rfl⟩,
      fun some => absurd rfl some, ?_, Int.le_refl 0⟩
    intro line member
    rw [List.mem_singleton.mp member]
    exact .inl (Int.le_of_lt positive)
  | put _ allowed run ih => exact (ih.returns_filteredPutCharacter allowed).unique run

theorem Settled.within_left (h : Settled width text s)
    (allowed : s.spaces = [] ∨ s.pos + s.spaces.length + 7 * s.tab ≤ s.width) :
    ∀ line ∈ linesOf (s.stream ++ s.spaces), Within width line := by
  rcases allowed with none | fits
  · rw [none, List.append_nil]
    exact h.lines
  · have most := columns_append_le (page s.stream).last s.spaces
    have here := h.column
    have tabs := h.tabs
    have bound := h.width_eq
    have lines := h.lines
    unfold linesOf at lines ⊢
    rw [page_append, foldl_page (newLine_notMem_gaps h.separates)]
    intro line member
    rcases List.mem_append.mp member with old | new
    · exact lines line (List.mem_append_left _ old)
    · rw [List.mem_singleton.mp new]
      refine .inl ?_
      dsimp only
      omega

/-- As long as no tabulation is wrapped with its word, and the separators that are left fit on their line,
the words and the newlines are kept, and each line has no more columns than the width or a single word. -/
theorem Reaches.wraps {text : List Character} {s : WordsOutputStream} (reaches : Reaches width text s) :
    (∀ c, s.Allowed c → Returns (s.filteredPutCharacter c) fun _ => True) ∧
    (s.DisconnectAllowed → Returns s.disconnect fun s' => Kept (tokensOf text) (tokensOf s'.stream) ∧
      ∀ line ∈ linesOf s'.stream, Within width line) := by
  have h := reaches.sound
  refine ⟨fun c allowed => (h.returns_filteredPutCharacter allowed).mono fun _ _ => trivial, fun allowed => ?_⟩
  unfold DisconnectAllowed at allowed
  unfold disconnect
  by_cases some : s.word ≠ []
  · rw [if_pos some] at allowed ⊢
    exact (h.returns_flushWord some allowed).mono fun s' settled => ⟨settled.kept, settled.lines⟩
  · rw [if_neg some] at allowed ⊢
    have settled := h.settled (Decidable.not_not.mp some)
    rw [Returns.some_iff, putAll_eq]
    refine ⟨?_, settled.within_left allowed⟩
    by_cases left : s.spaces = []
    · rw [left, List.append_nil]
      exact settled.kept
    · have written : tokensOf (s.stream ++ s.spaces) = tokensOf s.stream := by
        unfold tokensOf
        rw [reading_append, foldl_read_gaps h.separates (.inl left), close_nil]
      rw [written]
      exact settled.kept

theorem Reaches.wraps_short : ∃ s, Reaches 2 [97, 32, 98] s ∧
    Returns s.disconnect fun s' => Kept (tokensOf [97, 32, 98]) (tokensOf s'.stream) ∧
      ∀ line ∈ linesOf s'.stream, Within 2 line := by
  have first : Reaches 2 [97] _ :=
    (Reaches.make (by decide)).put (fun separates => absurd separates (by decide)) rfl
  have second : Reaches 2 [97, 32] _ := first.put (fun _ _ => .inr (.inl (by decide))) rfl
  have third : Reaches 2 [97, 32, 98] _ := second.put (fun separates => absurd separates (by decide)) rfl
  exact ⟨_, third, (Reaches.wraps third).2 (.inr (.inl (Nat.le_refl 1)))⟩

/-- Two tabulations that are wrapped with their word, and a word after it. -/
theorem not_wraps :
    ¬∀ (width : Int) (text : List Character), 0 < width →
      Returns (text.foldlM filteredPutCharacter (make width) >>= disconnect) fun s =>
        Kept (tokensOf text) (tokensOf s.stream) ∧ ∀ line ∈ linesOf s.stream, Within width line := by
  intro all
  have run : [97, 97, 97, 97, 9, 9, 98, 32, 99, 99, 99].foldlM filteredPutCharacter (make 20) >>= disconnect =
      some ⟨20, [], [], 9, 0, [97, 97, 97, 97, 10, 9, 9, 98, 32, 99, 99, 99]⟩ := rfl
  obtain ⟨s, run', -, lines⟩ := all 20 [97, 97, 97, 97, 9, 9, 98, 32, 99, 99, 99] (by decide)
  cases run.symm.trans run'
  rcases lines [9, 9, 98, 32, 99, 99, 99] (by decide) with narrow | ⟨letters, alone⟩
  · exact absurd narrow (by decide)
  · have two : (tokensOf [9, 9, 98, 32, 99, 99, 99]).length = 2 := rfl
    rw [alone] at two
    exact absurd (List.length_singleton.symm.trans two) (by decide)

end WordsOutputStream

end Liberty
