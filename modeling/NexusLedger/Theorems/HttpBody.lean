import NexusLedger.Http
import NexusLedger.Lib.JsonTree

/-! What the clean-up of an HTTP body does to the JSON in it. The blanks between the tokens mean nothing; the spaces
    within the literals go with them. -/

namespace NexusLedger
open JsonText

/-- The JSON library: its parser, its conversion of numbers, and how it stores the members of an object. -/
structure JsonLibrary where
  parse : String → Option Json
  number : List Char → Option Json
  collect : List (String × Json) → List (String × Json)

/-- The library reads the grammar. Which of two members of one name it keeps is left open. -/
structure JsonLibrary.Conforms (L : JsonLibrary) : Prop where
  parses : ∀ (s : String) (t : Tree), lex s = some t.tokens → L.parse s = t.value L.number L.collect
  stores : Tree.Stores L.collect

namespace Node
variable {L : JsonLibrary} {body : String} {t : Tree} {v : Json}

theorem cleanBody_eq (body : String) : cleanBody body = String.ofList (strip body.toList) := by
  unfold cleanBody strip
  congr 2
  funext c
  rw [Bool.not_inj_iff, blank, Bool.eq_iff_iff]
  simp only [Bool.or_eq_true, beq_iff_eq]
  tauto

/-- A request that posts a transaction with this body. -/
def Posts (buffer body : String) : Prop :=
  (behind "POST /transaction".toList (cText buffer).toList).isSome = true ∧
    behind "\r\n\r\n".toList (cText buffer).toList = some body.toList

theorem lex_cleanBody (h : lex body = some t.tokens) : lex (cleanBody body) = some t.squeeze.tokens := by
  rw [cleanBody_eq]
  exact Tree.lex_strip h

theorem cleanBody_ne_empty (h : lex body = some t.tokens) : cleanBody body ≠ "" := by
  intro hempty
  have hlex := lex_cleanBody h
  rw [hempty, show lex "" = some [] from rfl, Option.some.injEq] at hlex
  have hread := Tree.read_tokens t.squeeze
  rw [← hlex] at hread
  cases hread

section
variable [Arithmetic]

/-- What the handler parses is the value that the client sent, and a node does with each request of this body what it
    does with the value. -/
structure KeepsMeaning (L : JsonLibrary) (body : String) (v : Json) : Prop where
  value : L.parse (cleanBody body) = some v
  handled : ∀ (env : Env) (n : Node) (now : Int64) (buffer : String), Posts buffer body →
    (n.handleRequest L.parse env now buffer).1 = (n.handleHttp env now v).1

theorem handleBody_of_value {parse : String → Option Json} (hclean : cleanBody body ≠ "")
    (hv : parse (cleanBody body) = some v) (env : Env) (n : Node) (now : Int64) :
    (n.handleBody parse env now body).1 = (n.handleHttp env now v).1 := by
  simp only [handleBody, if_neg hclean, hv, handleHttp]
  cases n.readHttpTransaction env now v with
  | error err => rfl
  | ok tx => rcases hadd : n.blockchain.addTransaction env tx now with ⟨_ | _, c⟩ <;> simp only [hadd]

theorem handleRequest_of_posts {parse : String → Option Json} {buffer : String} (h : Posts buffer body) (env : Env)
    (n : Node) (now : Int64) : n.handleRequest parse env now buffer = n.handleBody parse env now body := by
  simp only [handleRequest, h.1, if_true, h.2, String.ofList_toList]

/-- A body that has a value keeps it when no literal in it has a space; and if the names within each of its objects are
    distinct, then it keeps its value only so. -/
theorem body_meaning_iff (L : JsonLibrary) (body : String) (t : Tree) (v : Json) (hL : L.Conforms)
    (hvalid : lex body = some t.tokens) (hv : L.parse body = some v) :
    (t.Unspaced → KeepsMeaning L body v) ∧ (t.Distinct → KeepsMeaning L body v → t.Unspaced) := by
  have hclean := lex_cleanBody hvalid
  constructor
  · intro hunspaced
    have hsame := Tree.tokens_squeeze_of_unspaced hunspaced
    have hvalue : L.parse (cleanBody body) = some v := by
      rw [hL.parses _ t (hsame ▸ hclean), ← hL.parses body t hvalid, hv]
    refine ⟨hvalue, fun env n now buffer hposts => ?_⟩
    rw [handleRequest_of_posts hposts]
    exact handleBody_of_value (cleanBody_ne_empty hvalid) hvalue env n now
  · intro hdistinct hkeeps
    have hsqueezed := hkeeps.value
    rw [hL.parses _ _ hclean] at hsqueezed
    rw [hL.parses _ _ hvalid] at hv
    exact Tree.unspaced_of_value hL.stores hdistinct hv hsqueezed

end

end Node

/-! ### A body with and without a space in a name -/

namespace Node
variable {body : String}

attribute [local instance] Arithmetic.binary64

/-- Numbers without a sign, a fraction and an exponent. -/
def plainNumber (w : List Char) : Option Json :=
  if w ≠ [] ∧ w.all Char.isDigit then some (.int (w.foldl (fun n c => 10 * n + (c.toNat - '0'.toNat)) 0 : Nat))
  else none

/-- A library that leaves the members of an object as they come. -/
def plainLibrary : JsonLibrary where
  parse s := (lex s).bind fun ts => (Tree.read ts).bind (Tree.value plainNumber id)
  number := plainNumber
  collect := id

theorem lookup_of_nodup {ms : List (String × Json)} (h : (ms.map Prod.fst).Nodup) :
    ∀ x ∈ ms, ms.lookup x.1 = some x.2 := by
  induction ms with
  | nil => exact fun x hx => absurd hx List.not_mem_nil
  | cons m ms ih =>
    obtain ⟨hfirst, hrest⟩ := List.nodup_cons.mp h
    intro x hx
    rw [List.lookup_cons]
    rcases List.mem_cons.mp hx with rfl | hx
    · rw [beq_self_eq_true]
    · have hne : x.1 ≠ m.1 := fun heq => hfirst (heq ▸ List.mem_map_of_mem hx)
      rw [beq_eq_false_iff_ne.mpr hne]
      exact ih hrest x hx

theorem conforms_plainLibrary : plainLibrary.Conforms where
  parses s t h := by
    simp only [plainLibrary, h, Option.bind_some, Tree.read_tokens]
  stores := ⟨fun ms name => Iff.rfl, fun ms h => lookup_of_nodup h⟩

/-- A literal without escapes. -/
def plain (s : String) : List Piece := s.toList.map .char

theorem text_plain (s : String) : text (plain s) = some s.toList := by
  unfold text plain
  induction s.toList with
  | nil => rfl
  | cons c cs ih => rw [List.map_cons, textFrom, ih, Option.map_some]

def paymentTree (payer : String) : Tree :=
  .obj [(plain "amount", .word ['1', '0']), (plain "from", .str (plain payer)), (plain "to", .str (plain "bob"))]

def paymentValue (payer : String) : Json := .obj [("amount", .int 10), ("from", .str payer), ("to", .str "bob")]

theorem value_paymentTree (payer : String) :
    (paymentTree payer).value plainNumber id = some (paymentValue payer) := by
  have hamount : (Tree.word ['1', '0']).value plainNumber id = some (.int 10) := rfl
  have hstr : ∀ s, (Tree.str (plain s)).value plainNumber id = some (.str s) := by
    intro s
    show (text (plain s)).map _ = _
    rw [text_plain, Option.map_some, String.ofList_toList]
  have hmember : ∀ s v, Tree.memberValue (plain s) (some v) = some (s, v) := fun s v =>
    Tree.memberValue_eq_some_iff.mpr ⟨text_plain s, rfl⟩
  rw [paymentTree, Tree.value_obj]
  simp only [List.map_cons, List.map_nil, hamount, hstr, hmember]
  rfl

theorem parse_of_paymentTree {payer : String} (h : lex body = some (paymentTree payer).tokens) :
    plainLibrary.parse body = some (paymentValue payer) :=
  (conforms_plainLibrary.parses body _ h).trans (value_paymentTree payer)

/-- Blanks between all its tokens. -/
def blankBody : String :=
  "\x7b \"amount\": 10,\r\n\t\"from\": \"genesis_miner\",\r\n\t\"to\": \"bob\" \x7d"

theorem lex_blankBody : lex blankBody = some (paymentTree "genesis_miner").tokens := by decide +kernel

theorem body_meaning_iff_blankBody :
    ((paymentTree "genesis_miner").Unspaced →
        KeepsMeaning plainLibrary blankBody (paymentValue "genesis_miner")) ∧
      ((paymentTree "genesis_miner").Distinct →
        KeepsMeaning plainLibrary blankBody (paymentValue "genesis_miner") →
          (paymentTree "genesis_miner").Unspaced) :=
  body_meaning_iff plainLibrary blankBody (paymentTree "genesis_miner") (paymentValue "genesis_miner")
    conforms_plainLibrary lex_blankBody (parse_of_paymentTree lex_blankBody)

/-- A space in the name of the payer. -/
def spacedBody : String := "\x7b\"amount\":10,\"from\":\"genesis _miner\",\"to\":\"bob\"\x7d"

/-- The client names the wallet `genesis _miner`, and `genesis_miner` is to pay. -/
theorem payer_changed :
    plainLibrary.Conforms ∧ lex spacedBody = some (paymentTree "genesis _miner").tokens ∧
      plainLibrary.parse spacedBody = some (paymentValue "genesis _miner") ∧
      plainLibrary.parse (cleanBody spacedBody) = some (paymentValue "genesis_miner") ∧
      ¬KeepsMeaning plainLibrary spacedBody (paymentValue "genesis _miner") := by
  have hlex : lex spacedBody = some (paymentTree "genesis _miner").tokens := by decide +kernel
  have hcleaned : lex (cleanBody spacedBody) = some (paymentTree "genesis_miner").tokens := by decide +kernel
  have hchanged := parse_of_paymentTree hcleaned
  refine ⟨conforms_plainLibrary, hlex, parse_of_paymentTree hlex, hchanged, fun hkeeps => ?_⟩
  have hvalue := hkeeps.value
  rw [hchanged, Option.some.injEq] at hvalue
  simp [paymentValue] at hvalue

end Node

end NexusLedger
