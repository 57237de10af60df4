import Mathlib.Data.List.Chain
import Mathlib.Data.List.Count

/-! JSON text as tokens: marks, string literals, and words between them. The lexer goes over the text once, with a mode
    for each place it can be in. Blanks between tokens tell words apart and mean nothing else; a literal keeps its
    spaces. -/

namespace JsonText

/-! ### Literals -/

/-- What a literal is written with: a character, its own or the one of a short escape, and a `\u` escape. -/
inductive Piece
  | char (c : Char)
  | unit (n : Nat)
  deriving DecidableEq

def isHigh (n : Nat) : Bool := decide (0xD800 ≤ n ∧ n < 0xDC00)

def isLow (n : Nat) : Bool := decide (0xDC00 ≤ n ∧ n < 0xE000)

/-- The text of a literal. A high surrogate waits for the low one that has to follow. -/
def textFrom : Option Nat → List Piece → Option (List Char)
  | none, [] => some []
  | some _, [] => none
  | none, .char c :: rest => (textFrom none rest).map (c :: ·)
  | some _, .char _ :: _ => none
  | none, .unit n :: rest =>
    if isHigh n then textFrom (some n) rest
    else if isLow n then none
    else (textFrom none rest).map (Char.ofNat n :: ·)
  | some high, .unit low :: rest =>
    if isLow low then
      (textFrom none rest).map (Char.ofNat (0x10000 + (high - 0xD800) * 0x400 + (low - 0xDC00)) :: ·)
    else none

def text (ps : List Piece) : Option (List Char) := textFrom none ps

/-- A literal without the spaces that are written in it. -/
def squeeze (ps : List Piece) : List Piece := ps.filter fun p => p != .char ' '

@[simp] theorem squeeze_space (ps : List Piece) : squeeze (.char ' ' :: ps) = squeeze ps := rfl

theorem squeeze_cons {p : Piece} (h : p ≠ .char ' ') (ps : List Piece) : squeeze (p :: ps) = p :: squeeze ps :=
  List.filter_cons_of_pos (by simpa using h)

theorem squeeze_append (ps qs : List Piece) : squeeze (ps ++ qs) = squeeze ps ++ squeeze qs := List.filter_append ..

theorem squeeze_eq_self {ps : List Piece} (h : .char ' ' ∉ ps) : squeeze ps = ps := by
  rw [squeeze, List.filter_eq_self]
  intro p hp
  simp only [bne_iff_ne, ne_eq]
  exact fun heq => h (heq ▸ hp)

/-- Each space that goes is a character less in the text. -/
theorem textFrom_squeeze {pending : Option Nat} {ps : List Piece} {cs : List Char} (h : textFrom pending ps = some cs) :
    ∃ ds, textFrom pending (squeeze ps) = some ds ∧ ds.length + ps.count (.char ' ') = cs.length := by
  induction ps generalizing pending cs with
  | nil => exact ⟨cs, h, by simp⟩
  | cons p ps ih =>
    by_cases hspace : p = .char ' '
    · subst hspace
      cases pending with
      | some high => cases h
      | none =>
        obtain ⟨rest, hrest, rfl⟩ := Option.map_eq_some_iff.mp h
        obtain ⟨ds, hds, hlength⟩ := ih hrest
        refine ⟨ds, hds, ?_⟩
        rw [List.count_cons_self, List.length_cons]
        omega
    · -- Another piece stays, and adds the same to both texts.
      have added : ∀ {c : Char} {pending : Option Nat} {rest : List Char}, textFrom pending ps = some rest →
          ∃ ds, (textFrom pending (squeeze ps)).map (c :: ·) = some ds ∧
            ds.length + ps.count (.char ' ') = (c :: rest).length := by
        intro c pending rest hrest
        obtain ⟨ds, hds, hlength⟩ := ih hrest
        refine ⟨c :: ds, by rw [hds]; rfl, ?_⟩
        rw [List.length_cons, List.length_cons]
        omega
      rw [squeeze_cons hspace, List.count_cons_of_ne hspace]
      cases pending with
      | none =>
        cases p with
        | char c =>
          obtain ⟨rest, hrest, rfl⟩ := Option.map_eq_some_iff.mp h
          exact added hrest
        | unit n =>
          unfold textFrom at h ⊢
          split_ifs at h ⊢ with hhigh hlow
          · exact ih h
          · obtain ⟨rest, hrest, rfl⟩ := Option.map_eq_some_iff.mp h
            exact added hrest
      | some high =>
        cases p with
        | char c => cases h
        | unit low =>
          unfold textFrom at h ⊢
          split_ifs at h ⊢ with hlow
          obtain ⟨rest, hrest, rfl⟩ := Option.map_eq_some_iff.mp h
          exact added hrest

/-- A literal that has a space means less without it. -/
theorem space_notMem_of_text {ps : List Piece} {cs : List Char} (h : text ps = some cs)
    (hsqueezed : text (squeeze ps) = some cs) : .char ' ' ∉ ps := by
  obtain ⟨ds, hds, hlength⟩ := textFrom_squeeze h
  rw [text, hds, Option.some.injEq] at hsqueezed
  rw [← List.count_eq_zero]
  rw [hsqueezed] at hlength
  omega

/-! ### Tokens -/

inductive Token
  | mark (c : Char)
  | str (ps : List Piece)
  | word (w : List Char)
  deriving DecidableEq

namespace Token

/-- A token without the spaces of its literal. -/
def squeeze : Token → Token
  | mark c => mark c
  | str ps => str (JsonText.squeeze ps)
  | word w => word w

def isWord : Token → Bool
  | word _ => true
  | _ => false

end Token

/-- No two words stand side by side. -/
def Separated (ts : List Token) : Prop := ts.IsChain fun a b => ¬(a.isWord = true ∧ b.isWord = true)

/-! ### The lexer -/

/-- Whitespace of the grammar. -/
def blank (c : Char) : Bool := c == ' ' || c == '\t' || c == '\n' || c == '\r'

def isMark (c : Char) : Bool := c == '{' || c == '}' || c == '[' || c == ']' || c == ':' || c == ','

/-- What numbers and the names `true`, `false` and `null` are written with. -/
def isWordChar (c : Char) : Bool := c.isAlphanum || c == '+' || c == '-' || c == '.'

/-- The short escapes. -/
def escaped (c : Char) : Option Char :=
  match c with
  | '"' => some '"'
  | '\\' => some '\\'
  | '/' => some '/'
  | 'b' => some '\x08'
  | 'f' => some '\x0c'
  | 'n' => some '\n'
  | 'r' => some '\r'
  | 't' => some '\t'
  | _ => none

def hexDigit (c : Char) : Option Nat :=
  if c.isDigit then some (c.toNat - '0'.toNat)
  else if 'a' ≤ c ∧ c ≤ 'f' then some (c.toNat - 'a'.toNat + 10)
  else if 'A' ≤ c ∧ c ≤ 'F' then some (c.toNat - 'A'.toNat + 10)
  else none

/-- Where the lexer is: between literals, with the word it has begun; in a literal; behind a backslash; in a `\u` escape
    with some digits to come after the next one. -/
inductive Mode
  | out (w : List Char)
  | lit (ps : List Piece)
  | esc (ps : List Piece)
  | hex (ps : List Piece) (left n : Nat)

/-- The word that ends here, if one has begun. -/
def flush : List Char → List Token
  | [] => []
  | w => [.word w]

def Mode.step : Mode → Char → Option (List Token × Mode)
  | .out w, c =>
    if blank c then some (flush w, .out [])
    else if c = '"' then some (flush w, .lit [])
    else if isMark c then some (flush w ++ [.mark c], .out [])
    else if isWordChar c then some ([], .out (w ++ [c]))
    else none
  | .lit ps, c =>
    if c = '"' then some ([.str ps], .out [])
    else if c = '\\' then some ([], .esc ps)
    else if c < ' ' then none
    else some ([], .lit (ps ++ [.char c]))
  | .esc ps, c =>
    if c = 'u' then some ([], .hex ps 3 0) else (escaped c).map fun d => ([], .lit (ps ++ [.char d]))
  | .hex ps 0 n, c => (hexDigit c).map fun d => ([], .lit (ps ++ [.unit (16 * n + d)]))
  | .hex ps (left + 1) n, c => (hexDigit c).map fun d => ([], .hex ps left (16 * n + d))

def lexFrom : Mode → List Char → Option (List Token)
  | .out w, [] => some (flush w)
  | _, [] => none
  | m, c :: cs =>
    match m.step c with
    | none => none
    | some (ts, m) => (lexFrom m cs).map (ts ++ ·)

def lex (s : String) : Option (List Token) := lexFrom (.out []) s.toList

/-! ### Blanks -/

/-- A text without its blanks, wherever they stand. -/
def strip (cs : List Char) : List Char := cs.filter fun c => !blank c

/-- The mode that the lexer is in when what is behind it was stripped. -/
def Mode.squeeze : Mode → Mode
  | .out w => .out w
  | .lit ps => .lit (JsonText.squeeze ps)
  | .esc ps => .esc (JsonText.squeeze ps)
  | .hex ps left n => .hex (JsonText.squeeze ps) left n

theorem blank_of_space {c : Char} (h : blank c = false) : c ≠ ' ' := by
  rintro rfl
  cases h

/-- No short escape stands for a space. -/
theorem escaped_ne_space {c d : Char} (h : escaped c = some d) : d ≠ ' ' := by
  unfold escaped at h
  rintro rfl
  split at h <;> cases h

theorem squeeze_concat {p : Piece} (h : p ≠ .char ' ') (ps : List Piece) : squeeze (ps ++ [p]) = squeeze ps ++ [p] := by
  rw [squeeze_append, squeeze_cons h]
  rfl

theorem map_squeeze_flush (w : List Char) : (flush w).map Token.squeeze = flush w := by
  cases w <;> rfl

/-- Another character than a blank does the same to both. -/
theorem step_squeeze {m m' : Mode} {c : Char} {ts : List Token} (hc : blank c = false) (h : m.step c = some (ts, m')) :
    m.squeeze.step c = some (ts.map Token.squeeze, m'.squeeze) := by
  cases m with
  | out w =>
    simp only [Mode.squeeze, Mode.step, hc, Bool.false_eq_true, if_false] at h ⊢
    split_ifs at h ⊢ with hquote hmark hword
    · cases h
      rw [map_squeeze_flush]
      rfl
    · cases h
      rw [List.map_append, map_squeeze_flush]
      rfl
    · cases h
      rfl
  | lit ps =>
    simp only [Mode.squeeze, Mode.step] at h ⊢
    split_ifs at h ⊢ with hquote hescape hcontrol
    · cases h
      rfl
    · cases h
      rfl
    · cases h
      have hspace : Piece.char c ≠ .char ' ' := fun heq => blank_of_space hc (Piece.char.inj heq)
      rw [← squeeze_concat hspace]
      rfl
  | esc ps =>
    simp only [Mode.squeeze, Mode.step] at h ⊢
    split_ifs at h ⊢ with hunit
    · cases h
      rfl
    · obtain ⟨d, hd, heq⟩ := Option.map_eq_some_iff.mp h
      cases heq
      have hspace : Piece.char d ≠ .char ' ' := fun heq => escaped_ne_space hd (Piece.char.inj heq)
      rw [hd, Option.map_some, ← squeeze_concat hspace]
      rfl
  | hex ps left n =>
    cases left with
    | zero =>
      obtain ⟨d, hd, heq⟩ := Option.map_eq_some_iff.mp h
      cases heq
      have hspace : Piece.unit (16 * n + d) ≠ .char ' ' := fun heq => nomatch heq
      simp only [Mode.squeeze, Mode.step, hd, Option.map_some, squeeze_concat hspace]
      rfl
    | succ left =>
      obtain ⟨d, hd, heq⟩ := Option.map_eq_some_iff.mp h
      cases heq
      simp only [Mode.squeeze, Mode.step, hd, Option.map_some]
      rfl

theorem lexFrom_cons {m : Mode} {c : Char} {cs : List Char} {ts : List Token} :
    lexFrom m (c :: cs) = some ts ↔
      ∃ first m' rest, m.step c = some (first, m') ∧ lexFrom m' cs = some rest ∧ ts = first ++ rest := by
  rw [lexFrom]
  split
  · rename_i hnone
    simp [hnone]
  · rename_i first m' hstep
    rw [Option.map_eq_some_iff]
    constructor
    · rintro ⟨rest, hrest, rfl⟩
      exact ⟨first, m', rest, hstep, hrest, rfl⟩
    · rintro ⟨_, _, rest, hstep', hrest, rfl⟩
      rw [hstep] at hstep'
      cases hstep'
      exact ⟨rest, hrest, rfl⟩

theorem eq_of_blank {c : Char} (h : blank c = true) : c = ' ' ∨ c = '\t' ∨ c = '\n' ∨ c = '\r' := by
  simpa [blank, or_assoc] using h

/-- A blank ends a word. In a literal it is a space, the other ones are control characters, and in an escape there is
    none. -/
theorem step_blank {m m' : Mode} {c : Char} {ts : List Token} (hc : blank c = true) (h : m.step c = some (ts, m')) :
    (∃ w, m = .out w ∧ ts = flush w ∧ m' = .out []) ∨ (ts = [] ∧ m'.squeeze = m.squeeze) := by
  cases m with
  | out w =>
    simp only [Mode.step, hc, if_true] at h
    cases h
    exact Or.inl ⟨w, rfl, rfl, rfl⟩
  | lit ps =>
    right
    rcases eq_of_blank hc with rfl | rfl | rfl | rfl
    · cases h
      refine ⟨rfl, congrArg Mode.lit ?_⟩
      rw [squeeze_append, squeeze_space]
      exact List.append_nil _
    all_goals cases h
  | esc ps => rcases eq_of_blank hc with rfl | rfl | rfl | rfl <;> cases h
  | hex ps left n => cases left <;> rcases eq_of_blank hc with rfl | rfl | rfl | rfl <;> cases h

/-- A word that has begun is the first token. -/
theorem word_of_lexFrom {w cs : List Char} {ts : List Token} (hw : w ≠ []) (h : lexFrom (.out w) cs = some ts) :
    ∃ word rest, ts = .word word :: rest := by
  have hflush : flush w = [.word w] := by
    cases w with
    | nil => exact absurd rfl hw
    | cons c w => rfl
  induction cs generalizing w ts with
  | nil =>
    cases h
    exact ⟨w, [], hflush⟩
  | cons c cs ih =>
    obtain ⟨first, m, rest, hstep, hrest, rfl⟩ := lexFrom_cons.mp h
    simp only [Mode.step, hflush] at hstep
    split at hstep
    · cases hstep
      exact ⟨w, rest, rfl⟩
    · split at hstep
      · cases hstep
        exact ⟨w, rest, rfl⟩
      · split at hstep
        · cases hstep
          exact ⟨w, .mark c :: rest, rfl⟩
        · split at hstep
          · cases hstep
            obtain ⟨word, rest', heq⟩ := ih (w := w ++ [c]) (by simp) hrest (by cases w <;> rfl)
            exact ⟨word, rest', heq⟩
          · cases hstep

/-- In front of a text that does not begin with a word, a word ends by itself. -/
theorem lexFrom_out {w cs : List Char} {ts : List Token} (h : lexFrom (.out []) cs = some ts)
    (hfirst : ∀ t ∈ ts.head?, t.isWord = false) : lexFrom (.out w) cs = some (flush w ++ ts) := by
  cases cs with
  | nil =>
    cases h
    exact congrArg some (List.append_nil _).symm
  | cons c cs =>
    obtain ⟨first, m, rest, hstep, hrest, rfl⟩ := lexFrom_cons.mp h
    rw [lexFrom_cons]
    simp only [Mode.step] at hstep ⊢
    split at hstep
    · rename_i hblank
      cases hstep
      exact ⟨flush w, .out [], rest, if_pos hblank, hrest, rfl⟩
    · rename_i hblank
      rw [if_neg hblank]
      split at hstep
      · rename_i hquote
        cases hstep
        exact ⟨flush w, .lit [], rest, if_pos hquote, hrest, rfl⟩
      · rename_i hquote
        rw [if_neg hquote]
        split at hstep
        · rename_i hmark
          cases hstep
          exact ⟨flush w ++ [.mark c], .out [], rest, if_pos hmark, hrest, (List.append_assoc _ _ _).symm⟩
        · split at hstep
          · -- The character would begin a word.
            cases hstep
            obtain ⟨word, rest', rfl⟩ := word_of_lexFrom (by simp) hrest
            cases hfirst (.word word) rfl
          · cases hstep

/-- The tokens of a text without its blanks are those of the text, without the spaces in their literals, if no two words
    stand side by side. -/
theorem lexFrom_strip {m : Mode} {cs : List Char} {ts : List Token} (h : lexFrom m cs = some ts) (hsep : Separated ts) :
    lexFrom m.squeeze (strip cs) = some (ts.map Token.squeeze) := by
  induction cs generalizing m ts with
  | nil =>
    cases m with
    | out w =>
      cases h
      rw [map_squeeze_flush]
      rfl
    | _ => cases h
  | cons c cs ih =>
    obtain ⟨first, m', rest, hstep, hrest, rfl⟩ := lexFrom_cons.mp h
    have hafter := ih hrest hsep.right_of_append
    by_cases hblank : blank c = true
    · have hstrip : strip (c :: cs) = strip cs := List.filter_cons_of_neg (by simp [hblank])
      rw [hstrip]
      rcases step_blank hblank hstep with ⟨w, rfl, rfl, rfl⟩ | ⟨rfl, hsame⟩
      · rw [List.map_append, map_squeeze_flush]
        cases w with
        | nil => exact hafter
        | cons x w =>
          -- The word goes on to the next character, which does not begin another one.
          refine lexFrom_out hafter fun t ht => ?_
          rw [List.head?_map, Option.mem_def, Option.map_eq_some_iff] at ht
          obtain ⟨t', ht', rfl⟩ := ht
          have hnot := (List.isChain_cons.mp hsep).1 t' ht'
          cases t' with
          | word w' => exact absurd ⟨rfl, rfl⟩ hnot
          | mark c => rfl
          | str ps => rfl
      · rw [← hsame]
        exact hafter
    · rw [Bool.not_eq_true] at hblank
      have hstrip : strip (c :: cs) = c :: strip cs := List.filter_cons_of_pos (by simp [hblank])
      rw [hstrip, lexFrom_cons]
      exact ⟨_, _, _, step_squeeze hblank hstep, hafter, List.map_append⟩

end JsonText
