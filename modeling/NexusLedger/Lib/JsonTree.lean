import NexusLedger.Lib.Json
import NexusLedger.Lib.JsonText
import Mathlib.Data.List.MinMax
import Mathlib.Data.List.Nodup

/-! JSON values as trees over their literals: the tokens that spell a tree, the reader of tokens, and the value that a
    tree stands for. How a library converts numbers and stores the members of an object is left to it. -/

namespace JsonText

/-- A value as it is written; a word is a number or one of `true`, `false` and `null`. -/
inductive Tree
  | word (w : List Char)
  | str (ps : List Piece)
  | arr (elems : List Tree)
  | obj (members : List (List Piece × Tree))

namespace Tree

section
variable {α : Type} (word : List Char → α) (str : List Piece → α) (arr : List α → α) (obj : List (List Piece × α) → α)

mutual

/-- The value of a tree, put together from those of its parts. -/
def fold : Tree → α
  | .word w => word w
  | .str ps => str ps
  | .arr elems => arr (foldElems elems)
  | .obj members => obj (foldMembers members)

def foldElems : List Tree → List α
  | [] => []
  | t :: ts => fold t :: foldElems ts

def foldMembers : List (List Piece × Tree) → List (List Piece × α)
  | [] => []
  | (name, t) :: rest => (name, fold t) :: foldMembers rest

end

theorem fold_arr (elems : List Tree) :
    fold word str arr obj (.arr elems) = arr (elems.map (fold word str arr obj)) := by
  have helems : ∀ ts, foldElems word str arr obj ts = ts.map (fold word str arr obj) := by
    intro ts
    induction ts with
    | nil => rfl
    | cons t ts ih => rw [foldElems, ih, List.map_cons]
  rw [fold, helems]

theorem fold_obj (members : List (List Piece × Tree)) :
    fold word str arr obj (.obj members) = obj (members.map fun m => (m.1, fold word str arr obj m.2)) := by
  have hmembers : ∀ ms, foldMembers word str arr obj ms = ms.map fun m => (m.1, fold word str arr obj m.2) := by
    intro ms
    induction ms with
    | nil => rfl
    | cons m ms ih => rw [foldMembers, ih, List.map_cons]
  rw [fold, hmembers]

end

theorem induction {P : Tree → Prop} (word : ∀ w, P (.word w)) (str : ∀ ps, P (.str ps))
    (arr : ∀ elems, (∀ t ∈ elems, P t) → P (.arr elems))
    (obj : ∀ members, (∀ m ∈ members, P m.2) → P (.obj members)) : ∀ t, P t
  | .word w => word w
  | .str ps => str ps
  | .arr elems => arr elems fun t _ => induction word str arr obj t
  | .obj members => obj members fun m _ => induction word str arr obj m.2
termination_by t => sizeOf t
decreasing_by
  · rename_i ht
    have hlt := List.sizeOf_lt_of_mem ht
    simp only [Tree.arr.sizeOf_spec]
    omega
  · rename_i hm
    have hlt := List.sizeOf_lt_of_mem hm
    obtain ⟨name, t⟩ := m
    simp only [Prod.mk.sizeOf_spec] at hlt
    simp only [Tree.obj.sizeOf_spec]
    omega

/-! ### Tokens -/

/-- Some parts with commas between them. -/
def separate : List (List Token) → List Token
  | [] => []
  | [part] => part
  | part :: rest => part ++ .mark ',' :: separate rest

def tokens : Tree → List Token :=
  fold (fun w => [.word w]) (fun ps => [.str ps]) (fun parts => .mark '[' :: (separate parts ++ [.mark ']']))
    fun members => .mark '{' :: (separate (members.map fun m => .str m.1 :: .mark ':' :: m.2) ++ [.mark '}'])

/-- The tokens of a member. -/
def memberTokens (m : List Piece × Tree) : List Token := .str m.1 :: .mark ':' :: m.2.tokens

theorem tokens_arr (elems : List Tree) :
    (arr elems).tokens = .mark '[' :: (separate (elems.map tokens) ++ [.mark ']']) := fold_arr ..

theorem tokens_obj (members : List (List Piece × Tree)) :
    (obj members).tokens = .mark '{' :: (separate (members.map memberTokens) ++ [.mark '}']) := by
  refine (fold_obj ..).trans ?_
  rw [List.map_map]
  rfl

theorem str_mem_separate {ps : List Piece} {parts : List (List Token)} (h : .str ps ∈ separate parts) :
    ∃ part ∈ parts, .str ps ∈ part := by
  induction parts with
  | nil => cases h
  | cons first rest ih =>
    cases rest with
    | nil => exact ⟨first, List.mem_cons_self, h⟩
    | cons second rest =>
      rcases List.mem_append.mp h with h | h
      · exact ⟨first, List.mem_cons_self, h⟩
      · obtain ⟨part, hpart, hmem⟩ := ih ((List.mem_cons.mp h).resolve_left fun heq => nomatch heq)
        exact ⟨part, List.mem_cons_of_mem _ hpart, hmem⟩

/-- A literal between two marks is one of a part. -/
theorem str_mem_enclosed {ps : List Piece} {o c : Char} {parts : List (List Token)}
    (h : .str ps ∈ .mark o :: (separate parts ++ [.mark c])) : ∃ part ∈ parts, .str ps ∈ part := by
  rcases List.mem_append.mp ((List.mem_cons.mp h).resolve_left fun heq => nomatch heq) with h | h
  · exact str_mem_separate h
  · cases List.mem_singleton.mp h

theorem separate_map (f : Token → Token) (hcomma : f (.mark ',') = .mark ',') (parts : List (List Token)) :
    (separate parts).map f = separate (parts.map (·.map f)) := by
  induction parts with
  | nil => rfl
  | cons first rest ih =>
    cases rest with
    | nil => rfl
    | cons second rest =>
      rw [separate, List.map_append, List.map_cons, hcomma, ih]
      · rfl
      · simp

/-! ### Words stand apart -/

theorem separated_append_mark {c : Char} {l r : List Token} (hl : Separated l) (hr : Separated r) :
    Separated (l ++ .mark c :: r) := by
  refine List.isChain_append.mpr ⟨hl, List.isChain_cons.mpr ⟨fun t _ h => ?_, hr⟩, fun a _ b hb h => ?_⟩
  · cases h.1
  · cases hb
    cases h.2

theorem separated_separate {parts : List (List Token)} (h : ∀ part ∈ parts, Separated part) :
    Separated (separate parts) := by
  induction parts with
  | nil => exact List.IsChain.nil
  | cons first rest ih =>
    obtain ⟨hfirst, hrest⟩ := List.forall_mem_cons.mp h
    cases rest with
    | nil => exact hfirst
    | cons second rest => exact separated_append_mark hfirst (ih hrest)

/-- Marks around separated parts. -/
theorem separated_enclosed {o c : Char} {parts : List (List Token)} (h : ∀ part ∈ parts, Separated part) :
    Separated (.mark o :: (separate parts ++ [.mark c])) :=
  separated_append_mark List.IsChain.nil (separated_append_mark (separated_separate h) List.IsChain.nil)

theorem separated_tokens (t : Tree) : Separated t.tokens := by
  induction t using Tree.induction with
  | word w => exact List.IsChain.singleton _
  | str ps => exact List.IsChain.singleton _
  | arr elems ih =>
    rw [tokens_arr]
    refine separated_enclosed fun part hpart => ?_
    obtain ⟨t, ht, rfl⟩ := List.mem_map.mp hpart
    exact ih t ht
  | obj members ih =>
    rw [tokens_obj]
    refine separated_enclosed fun part hpart => ?_
    obtain ⟨m, hm, rfl⟩ := List.mem_map.mp hpart
    exact separated_append_mark (l := [.str m.1]) (List.IsChain.singleton _) (ih m hm)

/-! ### Without spaces -/

def squeeze : Tree → Tree :=
  fold .word (fun ps => .str (JsonText.squeeze ps)) .arr fun members =>
    .obj (members.map fun m => (JsonText.squeeze m.1, m.2))

theorem squeeze_arr (elems : List Tree) : (arr elems).squeeze = arr (elems.map squeeze) := fold_arr ..

theorem squeeze_obj (members : List (List Piece × Tree)) :
    (obj members).squeeze = obj (members.map fun m => (JsonText.squeeze m.1, m.2.squeeze)) := by
  refine (fold_obj ..).trans ?_
  rw [List.map_map]
  rfl

theorem tokens_squeeze (t : Tree) : t.squeeze.tokens = t.tokens.map Token.squeeze := by
  induction t using Tree.induction with
  | word w => rfl
  | str ps => rfl
  | arr elems ih =>
    rw [squeeze_arr, tokens_arr, tokens_arr, List.map_cons, List.map_append, separate_map _ rfl, List.map_map,
      List.map_map]
    have hparts : elems.map (tokens ∘ squeeze) = elems.map ((·.map Token.squeeze) ∘ tokens) := List.map_congr_left ih
    rw [hparts]
    rfl
  | obj members ih =>
    rw [squeeze_obj, tokens_obj, tokens_obj, List.map_cons, List.map_append, separate_map _ rfl, List.map_map,
      List.map_map]
    have hparts : members.map (memberTokens ∘ fun m => (JsonText.squeeze m.1, m.2.squeeze)) =
        members.map ((·.map Token.squeeze) ∘ memberTokens) := by
      refine List.map_congr_left fun m hm => ?_
      simp only [Function.comp_apply, memberTokens, ih m hm, List.map_cons]
      rfl
    rw [hparts]
    rfl

/-- A text and the same text without its blanks spell the same tree, up to the spaces in its literals. -/
theorem lex_strip {s : String} {t : Tree} (h : lex s = some t.tokens) :
    lex (String.ofList (strip s.toList)) = some t.squeeze.tokens := by
  rw [tokens_squeeze, lex, String.toList_ofList]
  exact lexFrom_strip h t.separated_tokens

/-! ### Values -/

/-- All of them, if each one is there. -/
def all {α : Type} : List (Option α) → Option (List α)
  | [] => some []
  | none :: _ => none
  | some a :: rest => (all rest).map (a :: ·)

theorem all_eq_some_iff {α : Type} {l : List (Option α)} {as : List α} : all l = some as ↔ l = as.map some := by
  induction l generalizing as with
  | nil =>
    cases as with
    | nil => exact iff_of_true rfl rfl
    | cons a as => exact iff_of_false (fun h => nomatch h) fun h => nomatch h
  | cons x l ih =>
    cases x with
    | none =>
      refine iff_of_false (fun h => nomatch h) fun h => ?_
      cases as <;> cases h
    | some a =>
      rw [all, Option.map_eq_some_iff]
      cases as with
      | nil => simp
      | cons b as => simp [ih, and_comm]

section
variable (number : List Char → Option Json) (collect : List (String × Json) → List (String × Json))

def wordValue (w : List Char) : Option Json :=
  if w = "true".toList then some (.bool true)
  else if w = "false".toList then some (.bool false)
  else if w = "null".toList then some .null
  else number w

/-- A member with its name, if both can be read. -/
def memberValue (name : List Piece) (v : Option Json) : Option (String × Json) :=
  match text name, v with
  | some cs, some v => some (String.ofList cs, v)
  | _, _ => none

/-- What a tree stands for, over a conversion of numbers and a way to store members. -/
def value : Tree → Option Json :=
  fold (wordValue number) (fun ps => (text ps).map fun cs => .str (String.ofList cs))
    (fun elems => (all elems).map .arr) fun members =>
      (all (members.map fun m => memberValue m.1 m.2)).map fun xs => .obj (collect xs)

theorem value_arr (elems : List Tree) :
    (arr elems).value number collect = (all (elems.map (value number collect))).map .arr := fold_arr ..

theorem value_obj (members : List (List Piece × Tree)) : (obj members).value number collect =
    (all (members.map fun m => memberValue m.1 (m.2.value number collect))).map fun xs => .obj (collect xs) := by
  refine (fold_obj ..).trans ?_
  rw [List.map_map]
  rfl

end

/-- `collect` keeps the names, and where these are distinct each one finds its value. -/
structure Stores (collect : List (String × Json) → List (String × Json)) : Prop where
  names : ∀ ms name, name ∈ (collect ms).map Prod.fst ↔ name ∈ ms.map Prod.fst
  finds : ∀ ms, (ms.map Prod.fst).Nodup → ∀ x ∈ ms, (collect ms).lookup x.1 = some x.2

theorem memberValue_eq_some_iff {name : List Piece} {v : Option Json} {x : String × Json} :
    memberValue name v = some x ↔ text name = some x.1.toList ∧ v = some x.2 := by
  unfold memberValue
  split
  · rename_i cs v hcs
    rw [hcs, Option.some.injEq, Option.some.injEq, Option.some.injEq, Prod.ext_iff, ← String.toList_inj,
      String.toList_ofList]
  · rename_i hnone
    refine iff_of_false (fun h => nomatch h) ?_
    rintro ⟨hname, rfl⟩
    exact hnone _ _ hname rfl

/-- The names of an object that has a value. -/
theorem texts_of_members {α : Type} {l : List α} {name : α → List Piece} {v : α → Option Json}
    {xs : List (String × Json)} (h : l.map (fun a => memberValue (name a) (v a)) = xs.map some) :
    l.map (fun a => text (name a)) = (xs.map Prod.fst).map fun s => some s.toList := by
  induction l generalizing xs with
  | nil =>
    cases xs with
    | nil => rfl
    | cons x xs => cases h
  | cons a l ih =>
    cases xs with
    | nil => cases h
    | cons x xs =>
      obtain ⟨hfirst, hrest⟩ := List.cons.inj h
      rw [List.map_cons, (memberValue_eq_some_iff.mp hfirst).1, ih hrest]
      rfl

/-! ### What spaces are worth -/

/-- The names within each object are distinct. -/
inductive Distinct : Tree → Prop
  | word (w : List Char) : Distinct (.word w)
  | str (ps : List Piece) : Distinct (.str ps)
  | arr {elems : List Tree} (parts : ∀ t ∈ elems, Distinct t) : Distinct (.arr elems)
  | obj {members : List (List Piece × Tree)} (names : (members.map fun m => text m.1).Nodup)
    (parts : ∀ m ∈ members, Distinct m.2) : Distinct (.obj members)

/-- No literal has a space written in it. -/
def Unspaced (t : Tree) : Prop := ∀ ps, .str ps ∈ t.tokens → .char ' ' ∉ ps

theorem tokens_squeeze_of_unspaced {t : Tree} (h : t.Unspaced) : t.squeeze.tokens = t.tokens := by
  have hsame : t.tokens.map Token.squeeze = t.tokens.map id := by
    refine List.map_congr_left fun token htoken => ?_
    cases token with
    | str ps => exact congrArg Token.str (squeeze_eq_self (h ps htoken))
    | _ => rfl
  rw [tokens_squeeze, hsame, List.map_id]

section
variable {members : List (List Piece × Tree)} {v v' : List Piece × Tree → Option Json} {xs ys : List (String × Json)}

theorem exists_member {name : List Piece × Tree → List Piece}
    (hxs : members.map (fun m => memberValue (name m) (v m)) = xs.map some) {m : List Piece × Tree} (hm : m ∈ members) :
    ∃ x ∈ xs, text (name m) = some x.1.toList ∧ v m = some x.2 := by
  have hmem := List.mem_map_of_mem (f := fun m => memberValue (name m) (v m)) hm
  rw [hxs] at hmem
  obtain ⟨x, hx, heq⟩ := List.mem_map.mp hmem
  exact ⟨x, hx, memberValue_eq_some_iff.mp heq.symm⟩

/-- If an object has all its names without their spaces too, then one that has a space is a longer one without them. -/
theorem exists_longer (hdistinct : (members.map fun m => text m.1).Nodup)
    (hxs : members.map (fun m => memberValue m.1 (v m)) = xs.map some)
    (hys : members.map (fun m => memberValue (JsonText.squeeze m.1) (v' m)) = ys.map some)
    (hsame : ∀ name, name ∈ xs.map Prod.fst → name ∈ ys.map Prod.fst) {m : List Piece × Tree} (hm : m ∈ members)
    (hspace : .char ' ' ∈ m.1) :
    ∃ m' ∈ members, .char ' ' ∈ m'.1 ∧ ((text m.1).getD []).length < ((text m'.1).getD []).length := by
  obtain ⟨x, hx, hname, -⟩ := exists_member hxs hm
  have hmem : some x.1.toList ∈ members.map fun m => text (JsonText.squeeze m.1) := by
    rw [texts_of_members hys]
    exact List.mem_map_of_mem (hsame x.1 (List.mem_map_of_mem hx))
  obtain ⟨m', hm', htext⟩ := List.mem_map.mp hmem
  have hspace' : .char ' ' ∈ m'.1 := by
    by_contra hnone
    rw [squeeze_eq_self hnone, ← hname] at htext
    have heq := List.inj_on_of_nodup_map hdistinct hm' hm htext
    exact hnone (heq ▸ hspace)
  obtain ⟨x', -, hname', -⟩ := exists_member hxs hm'
  obtain ⟨ds, hds, hlength⟩ := textFrom_squeeze hname'
  have hcount := List.count_pos_iff.mpr hspace'
  rw [text, hds, Option.some.injEq] at htext
  refine ⟨m', hm', hspace', ?_⟩
  rw [hname, hname', Option.getD_some, Option.getD_some, ← htext]
  omega

/-- An object whose names stay the same without their spaces has none in them: the longest name that had one would be
    missing. -/
theorem names_unspaced (hdistinct : (members.map fun m => text m.1).Nodup)
    (hxs : members.map (fun m => memberValue m.1 (v m)) = xs.map some)
    (hys : members.map (fun m => memberValue (JsonText.squeeze m.1) (v' m)) = ys.map some)
    (hsame : ∀ name, name ∈ xs.map Prod.fst → name ∈ ys.map Prod.fst) : ∀ m ∈ members, .char ' ' ∉ m.1 := by
  intro m hm hspace
  cases hmax : (members.filter fun m => decide (.char ' ' ∈ m.1)).argmax fun m => ((text m.1).getD []).length with
  | none =>
    have hmem : m ∈ members.filter fun m => decide (.char ' ' ∈ m.1) :=
      List.mem_filter.mpr ⟨hm, decide_eq_true hspace⟩
    rw [List.argmax_eq_none.mp hmax] at hmem
    cases hmem
  | some longest =>
    obtain ⟨hlongest, hspaced⟩ := List.mem_filter.mp (List.argmax_mem hmax)
    obtain ⟨m', hm', hspace', hlt⟩ := exists_longer hdistinct hxs hys hsame hlongest (of_decide_eq_true hspaced)
    exact List.not_lt_of_mem_argmax (List.mem_filter.mpr ⟨hm', decide_eq_true hspace'⟩) hmax hlt

variable {number : List Char → Option Json} {collect : List (String × Json) → List (String × Json)}

/-- Under one name two objects that are stored alike have one value. -/
theorem eq_of_collect_eq (hstores : Stores collect) {x y : String × Json} (hxs : (xs.map Prod.fst).Nodup)
    (hys : (ys.map Prod.fst).Nodup) (heq : collect xs = collect ys) (hx : x ∈ xs) (hy : y ∈ ys)
    (hname : x.1 = y.1) : x.2 = y.2 := by
  have hfound := hstores.finds xs hxs x hx
  rw [heq, hname, hstores.finds ys hys y hy] at hfound
  exact (Option.some.inj hfound).symm

/-- An object that is the same without the spaces in its literals: its names have none, and under each name it keeps the
    value. -/
theorem member_kept (hstores : Stores collect) (hdistinct : (members.map fun m => text m.1).Nodup)
    (hxs : members.map (fun m => memberValue m.1 (v m)) = xs.map some)
    (hys : members.map (fun m => memberValue (JsonText.squeeze m.1) (v' m)) = ys.map some)
    (hcollect : collect xs = collect ys) :
    ∀ m ∈ members, .char ' ' ∉ m.1 ∧ ∃ w, v m = some w ∧ v' m = some w := by
  have hnames : ∀ m ∈ members, .char ' ' ∉ m.1 := by
    refine names_unspaced hdistinct hxs hys fun name hname => ?_
    rw [← hstores.names, ← hcollect, hstores.names]
    exact hname
  have hkept : members.map (fun m => text (JsonText.squeeze m.1)) = members.map fun m => text m.1 :=
    List.map_congr_left fun m hm => congrArg text (squeeze_eq_self (hnames m hm))
  have hxnodup : (xs.map Prod.fst).Nodup := List.Nodup.of_map _ (texts_of_members hxs ▸ hdistinct)
  have hynodup : (ys.map Prod.fst).Nodup := List.Nodup.of_map _ (texts_of_members hys ▸ hkept ▸ hdistinct)
  intro m hm
  obtain ⟨x, hx, hxname, hxv⟩ := exists_member hxs hm
  obtain ⟨y, hy, hyname, hyv⟩ := exists_member hys hm
  have hname : x.1 = y.1 := by
    rw [squeeze_eq_self (hnames m hm), hxname, Option.some.injEq, String.toList_inj] at hyname
    exact hyname
  have hvalue := eq_of_collect_eq hstores hxnodup hynodup hcollect hx hy hname
  exact ⟨hnames m hm, x.2, hxv, hvalue ▸ hyv⟩

/-- Where names are distinct, a value that is the same without the spaces in its literals has none. -/
theorem unspaced_of_value (hstores : Stores collect) {t : Tree} {v : Json} (hdistinct : t.Distinct)
    (hv : t.value number collect = some v) (hsqueezed : t.squeeze.value number collect = some v) : t.Unspaced := by
  induction t using Tree.induction generalizing v with
  | word w =>
    intro ps hps
    cases List.mem_singleton.mp hps
  | str ps =>
    intro qs hqs
    cases List.mem_singleton.mp hqs
    obtain ⟨cs, hcs, hstr⟩ := Option.map_eq_some_iff.mp hv
    obtain ⟨ds, hds, rfl⟩ := Option.map_eq_some_iff.mp hsqueezed
    have hsame : cs = ds := String.ofList_injective (Json.str.inj hstr)
    exact space_notMem_of_text hcs (hsame ▸ hds)
  | arr elems ih =>
    intro ps hps
    rw [tokens_arr] at hps
    obtain ⟨part, hpart, hmem⟩ := str_mem_enclosed hps
    obtain ⟨t, ht, rfl⟩ := List.mem_map.mp hpart
    rw [value_arr, Option.map_eq_some_iff] at hv
    rw [squeeze_arr, value_arr, Option.map_eq_some_iff] at hsqueezed
    obtain ⟨vs, hvs, harr⟩ := hv
    obtain ⟨ws, hws, rfl⟩ := hsqueezed
    cases harr
    rw [all_eq_some_iff] at hvs
    rw [all_eq_some_iff, List.map_map, ← hvs] at hws
    have hsame : t.squeeze.value number collect = t.value number collect := List.map_inj_left.mp hws t ht
    have hread := List.mem_map_of_mem (f := value number collect) ht
    rw [hvs] at hread
    obtain ⟨v, -, hvt⟩ := List.mem_map.mp hread
    cases hdistinct with
    | arr parts => exact ih t ht (parts t ht) hvt.symm (hsame.trans hvt.symm) ps hmem
  | obj members ih =>
    intro ps hps
    rw [tokens_obj] at hps
    obtain ⟨part, hpart, hmem⟩ := str_mem_enclosed hps
    obtain ⟨m, hm, rfl⟩ := List.mem_map.mp hpart
    rw [value_obj, Option.map_eq_some_iff] at hv
    rw [squeeze_obj, value_obj, Option.map_eq_some_iff] at hsqueezed
    obtain ⟨xs, hxs, hobj⟩ := hv
    obtain ⟨ys, hys, rfl⟩ := hsqueezed
    rw [all_eq_some_iff] at hxs
    rw [all_eq_some_iff, List.map_map] at hys
    cases hdistinct with
    | obj names parts =>
      obtain ⟨hname, w, hw, hw'⟩ := member_kept hstores names hxs hys (Json.obj.inj hobj) m hm
      rcases List.mem_cons.mp hmem with heq | hmem
      · cases heq
        exact hname
      · exact ih m hm (parts m hm) hw hw' ps ((List.mem_cons.mp hmem).resolve_left fun heq => nomatch heq)

end

/-! ### Reading tokens -/

/-- What a value stands in: an array or an object, with what precedes the value. -/
inductive Frame
  | elem (before : List Tree)
  | member (before : List (List Piece × Tree)) (name : List Piece)

/-- Where the reader is, within some frames: in front of a value, behind one, in front of a name, behind one. -/
inductive State
  | value (k : List Frame)
  | done (k : List Frame) (t : Tree)
  | name (k : List Frame) (before : List (List Piece × Tree))
  | colon (k : List Frame) (before : List (List Piece × Tree)) (name : List Piece)

def State.next : State → Token → Option State
  | .value k, .word w => some (.done k (.word w))
  | .value k, .str ps => some (.done k (.str ps))
  | .value k, .mark '[' => some (.value (.elem [] :: k))
  | .value k, .mark '{' => some (.name k [])
  -- Nothing precedes the value only behind the opening bracket.
  | .value (.elem [] :: k), .mark ']' => some (.done k (.arr []))
  | .done (.elem before :: k) t, .mark ',' => some (.value (.elem (before ++ [t]) :: k))
  | .done (.elem before :: k) t, .mark ']' => some (.done k (.arr (before ++ [t])))
  | .name k before, .str ps => some (.colon k before ps)
  | .name k [], .mark '}' => some (.done k (.obj []))
  | .colon k before ps, .mark ':' => some (.value (.member before ps :: k))
  | .done (.member before ps :: k) t, .mark ',' => some (.name k (before ++ [(ps, t)]))
  | .done (.member before ps :: k) t, .mark '}' => some (.done k (.obj (before ++ [(ps, t)])))
  | _, _ => none

def read (ts : List Token) : Option Tree :=
  match ts.foldlM State.next (.value []) with
  | some (.done [] t) => some t
  | _ => none

/-- The elements of an array, each one read as a tree. -/
theorem next_elems {elems : List Tree} {t : Tree} {before : List Tree} {k : List Frame}
    (ih : ∀ x ∈ t :: elems, ∀ k, x.tokens.foldlM State.next (.value k) = some (.done k x)) :
    (separate ((t :: elems).map tokens) ++ [Token.mark ']']).foldlM State.next (.value (.elem before :: k)) =
      some (.done k (.arr (before ++ t :: elems))) := by
  obtain ⟨hfirst, hrest⟩ := List.forall_mem_cons.mp ih
  induction elems generalizing t before with
  | nil =>
    rw [List.map_singleton, separate, List.foldlM_append, hfirst]
    rfl
  | cons second elems ihelems =>
    obtain ⟨hsecond, hothers⟩ := List.forall_mem_cons.mp hrest
    have hafter : _ = some (State.done k (.arr (before ++ [t] ++ second :: elems))) := ihelems hrest hsecond hothers
    rw [List.append_assoc, List.singleton_append] at hafter
    rw [List.map_cons, List.map_cons, separate, List.append_assoc, List.foldlM_append, hfirst]
    · exact hafter
    · simp

/-- The members of an object, each value read as a tree. -/
theorem next_members {members : List (List Piece × Tree)} {m : List Piece × Tree}
    {before : List (List Piece × Tree)} {k : List Frame}
    (ih : ∀ x ∈ m :: members, ∀ k, x.2.tokens.foldlM State.next (.value k) = some (.done k x.2)) :
    (separate ((m :: members).map memberTokens) ++ [Token.mark '}']).foldlM State.next (.name k before) =
      some (.done k (.obj (before ++ m :: members))) := by
  obtain ⟨hfirst, hrest⟩ := List.forall_mem_cons.mp ih
  have hmember : (memberTokens m).foldlM State.next (.name k before) =
      some (.done (.member before m.1 :: k) m.2) := hfirst _
  induction members generalizing m before with
  | nil =>
    rw [List.map_singleton, separate, List.foldlM_append, hmember]
    rfl
  | cons second members ihmembers =>
    obtain ⟨hsecond, hothers⟩ := List.forall_mem_cons.mp hrest
    have hafter : _ = some (State.done k (.obj (before ++ [m] ++ second :: members))) :=
      ihmembers hrest hsecond hothers (hsecond _)
    rw [List.append_assoc, List.singleton_append] at hafter
    rw [List.map_cons, List.map_cons, separate, List.append_assoc, List.foldlM_append, hmember]
    · exact hafter
    · simp

/-- The reader gives back the tree that some tokens spell. -/
theorem next_tokens (t : Tree) (k : List Frame) : t.tokens.foldlM State.next (.value k) = some (.done k t) := by
  induction t using Tree.induction generalizing k with
  | word w => rfl
  | str ps => rfl
  | arr elems ih =>
    rw [tokens_arr]
    cases elems with
    | nil => rfl
    | cons t elems => exact next_elems ih
  | obj members ih =>
    rw [tokens_obj]
    cases members with
    | nil => rfl
    | cons m members => exact next_members ih

theorem read_tokens (t : Tree) : read t.tokens = some t := by
  rw [read, next_tokens]

end Tree

end JsonText
