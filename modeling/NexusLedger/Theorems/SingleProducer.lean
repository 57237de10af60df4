import NexusLedger.Theorems.Adoption
import NexusLedger.Theorems.Branches

/-! Networks in which one node alone submits blocks. The other nodes store first parts of its chain, whatever the hash
    function, and a request with its answer brings a node up to it. -/

namespace NexusLedger
open Blockchain

section
set_option linter.unusedSectionVars false
variable [Arithmetic]

/-! ### The headers above genesis -/

namespace Blockchain
variable {env : Env} {c : Blockchain} {K : Header → Prop} {started : Int64} {x y : Header}

/-- The headers above genesis, in the order they came in. -/
def above (c : Blockchain) : List Header := c.headers.tail

theorem headers_congr {d : Blockchain} (h : d.rows = c.rows) : d.headers = c.headers := by
  rw [headers, h, headers]

theorem headers_of_appends {b : Block} (h : c.Appends b) : (c.addBlock b).2.headers = c.headers ++ [b.header] := by
  rw [headers, (addBlock_of_appends h).2.1, List.map_append, headers]
  rfl

namespace Sprung

theorem headers_eq (h : c.Sprung started K) : c.headers = (genesisRow started).toHeader :: c.above := by
  obtain ⟨rest, hrows, -⟩ := h.rows
  simp only [above, headers, hrows, List.map_cons, List.tail_cons]

theorem branch_above (h : c.Sprung started K) :
    headerLinks.Branch (.bind zeroHash) 0 K (genesisRow started).toHeader c.above := by
  obtain ⟨rest, hrows, hbranch⟩ := h.branch
  have heq : c.above = rest.map (·.toHeader) := by
    simp only [above, headers, hrows, List.map_cons, List.tail_cons]
  rw [heq]
  exact hbranch

theorem mem_above (h : c.Sprung started K) : x ∈ c.above ↔ ∃ r ∈ c.rows, 1 ≤ r.height.toInt ∧ r.toHeader = x := by
  obtain ⟨rest, hrows, -⟩ := h.rows
  have hord := h.chained.linked.ascending
  rw [hrows, List.pairwise_cons] at hord
  simp only [above, headers, hrows, List.map_cons, List.tail_cons]
  rw [List.mem_map]
  constructor
  · rintro ⟨r, hr, rfl⟩
    exact ⟨r, List.mem_cons_of_mem _ hr, hord.1 r hr, rfl⟩
  · rintro ⟨r, hr, hpos, rfl⟩
    rcases List.mem_cons.mp hr with rfl | hr
    · exact absurd hpos (show ¬(1 : ℤ) ≤ (0 : Int32).toInt by decide)
    · exact ⟨r, hr, rfl⟩

/-- The stored hashes tell the stored headers apart. -/
theorem named (h : c.Sprung started K) : headerLinks.Named (.bind zeroHash) (· ∈ c.above) where
  injective a b ha hb heq := by
    obtain ⟨r, hr, -, rfl⟩ := h.mem_above.mp ha
    obtain ⟨s, hs, -, rfl⟩ := h.mem_above.mp hb
    rw [LedgerDB.eq_of_hash hr hs heq]
  offRoot a ha heq := by
    obtain ⟨r, hr, hpos, rfl⟩ := h.mem_above.mp ha
    obtain ⟨rest, hrows, -⟩ := h.rows
    have hgenesis : genesisRow started ∈ c.rows := hrows ▸ List.mem_cons_self
    rw [LedgerDB.eq_of_hash (b := genesisRow started) hr hgenesis heq] at hpos
    exact absurd hpos (show ¬(1 : ℤ) ≤ (0 : Int32).toInt by decide)

theorem eq_of_height (h : c.Sprung started K) (hx : x ∈ c.above) (hy : y ∈ c.above) (heq : x.height = y.height) :
    x = y := by
  obtain ⟨r, hr, -, rfl⟩ := h.mem_above.mp hx
  obtain ⟨s, hs, -, rfl⟩ := h.mem_above.mp hy
  rw [LedgerDB.eq_of_height hr hs heq]

theorem above_subset (h : c.Sprung started K) (hx : x ∈ c.above) : K x := h.branch_above.stock x hx

/-- Without gaps the height is the number of headers above genesis. -/
theorem length_above (h : c.Sprung started K) (hK : BlockTree K) : (c.above.length : ℤ) = c.getHeight.toInt := by
  obtain ⟨rest, hrows, -⟩ := h.rows
  obtain ⟨tip, htip⟩ := exists_tip h.chained.nonempty
  have hlast : c.rows.getLast? = some tip := h.chained.getLast?_eq.trans htip
  rw [List.getLast?_eq_getElem?, List.getElem?_eq_some_iff] at hlast
  obtain ⟨hlt, heq⟩ := hlast
  have hheight := h.height_getElem hK _ hlt
  rw [heq, (tip_eq_some_iff.mp htip).2] at hheight
  rw [hheight, above, headers, hrows, List.map_cons, List.tail_cons, List.length_map, List.length_cons,
    Nat.add_sub_cancel]

theorem complete (h : c.Sprung started K) (hK : BlockTree K) : c.Complete env where
  nonneg := h.chained.nonneg
  gapFree := h.gapFree hK
  linked lower hl upper hu hnext := by
    obtain ⟨i, hi, rfl⟩ := List.mem_iff_getElem.mp hl
    obtain ⟨j, hj, rfl⟩ := List.mem_iff_getElem.mp hu
    rw [h.height_getElem hK i hi, h.height_getElem hK j hj] at hnext
    obtain rfl : j = i + 1 := by omega
    exact List.isChain_iff_getElem.mp h.chained.linked.linked i hj

theorem headers_storedBlocks (env : Env) (h : c.Sprung started K) (hK : BlockTree K) :
    (storedBlocks env c).map Block.header = c.headers := by
  have hcomplete : c.Complete env := h.complete hK
  have hlen := hcomplete.length_storedBlocks
  have hheight := h.length_above hK
  have hrows : c.rows.length = c.above.length + 1 := by
    rw [← List.length_cons (a := (genesisRow started).toHeader), ← h.headers_eq, headers, List.length_map]
  refine List.ext_getElem ?_ fun i hi hi' => ?_
  · rw [List.length_map, headers, List.length_map]
    omega
  · rw [List.length_map] at hi
    obtain ⟨r, hr, hri, hb⟩ := hcomplete.row hi
    simp only [headers, List.getElem_map]
    rw [headers, List.length_map] at hi'
    have hsame : r = c.rows[i] := by
      refine LedgerDB.eq_of_height hr (List.getElem_mem hi') (Int32.toInt_inj.mp ?_)
      rw [hri, h.height_getElem hK i hi']
    rw [hb, ← hsame]
    exact Header.header_toBlock r.toHeader

end Sprung
end Blockchain

/-! ### An answer with the rest of the chain -/

/-- Another genesis block of the same hash makes no difference to the chain above it. -/
theorem HeaderChain.replaceHead {g g' : Block} {l : List Block} (h : HeaderChain (g :: l))
    (hheight : g'.height = g.height) (hhash : g'.hash = g.hash) : HeaderChain (g' :: l) where
  height i hi := by
    cases i with
    | zero => exact (congrArg Int32.toInt hheight).trans (h.height 0 hi)
    | succ i => exact h.height (i + 1) hi
  linked i hi := by
    cases i with
    | zero => exact (h.linked 0 hi).trans hhash.symm
    | succ i => exact h.linked (i + 1) hi
  distinct := by
    rw [List.map_cons, hhash]
    exact h.distinct
  text b hb := by
    rcases List.mem_cons.mp hb with rfl | hb
    · rw [hhash]
      exact h.text g List.mem_cons_self
    · exact h.text b (List.mem_cons_of_mem _ hb)

namespace Blockchain
variable {env : Env} {c d : Blockchain} {K : Header → Prop} {started begun : Int64}

/-- The stored blocks of a chain, on the genesis block of another node. -/
theorem exists_regrounded (env : Env) (hd : d.Sprung begun K) (hK : BlockTree K) (started : Int64) :
    ∃ rest, HeaderChain (genesisBlock started :: rest) ∧ rest.map Block.header = d.above ∧
      ∀ k, 1 ≤ k → (storedBlocks env d).drop k = (genesisBlock started :: rest).drop k := by
  have hchain : HeaderChain (storedBlocks env d) := (hd.complete hK).headerChain
  have hheaders := hd.headers_storedBlocks env hK
  rw [hd.headers_eq] at hheaders
  obtain ⟨g, rest, hblocks, hg, hrest⟩ := List.map_eq_cons_iff.mp hheaders
  rw [hblocks] at hchain ⊢
  have hhash : zeroHash = g.hash := by
    have hstored : CString.bind g.hash = .bind zeroHash := congrArg Header.hash hg
    have htext : (CString.bind g.hash).val = g.hash := hchain.text g List.mem_cons_self
    rw [← htext, hstored]
    decide +kernel
  have hheight : g.height = 0 := congrArg Header.height hg
  refine ⟨rest, hchain.replaceHead hheight.symm hhash, hrest, fun k hk => ?_⟩
  obtain ⟨k, rfl⟩ : ∃ k', k = k' + 1 := ⟨k - 1, by omega⟩
  rfl

/-- The blocks from right above the tip on, or from lower, bring a node to the height of their sender. -/
theorem addReceived_reaches (hc : c.Sprung started K) (hd : d.Sprung begun K) (hK : BlockTree K)
    (hfinite : ∀ x ∈ d.above, x.difficulty.val.isFinite = true) (hbegins : c.above <+: d.above) {k : Nat} (hk : 1 ≤ k)
    (hle : (k : ℤ) ≤ c.getHeight.toInt + 1) :
    d.getHeight.toInt ≤
      (Node.addReceived c (((storedBlocks env d).drop k).map (·.toJson env))).1.getHeight.toInt := by
  obtain ⟨rest, hC, hrest, hdrop⟩ := exists_regrounded env hd hK started
  have hdlen := hd.length_above hK
  have hclen := hc.length_above hK
  have hlen : rest.length = d.above.length := by rw [← hrest, List.length_map]
  have hstores : c.StoresPrefix (genesisBlock started :: rest) (c.above.length + 1) := by
    refine ⟨by rw [List.length_cons, hlen]; exact Nat.succ_le_succ hbegins.length_le, ?_⟩
    rw [hc.headers_eq, List.take_succ_cons, List.map_cons, List.map_take, hrest, ← List.prefix_iff_eq_take.mp hbegins]
    exact List.Perm.refl _
  have hsent : ∀ b ∈ ((genesisBlock started :: rest).drop k).take (rest.length + 1), b.difficulty.isFinite = true := by
    intro b hb
    obtain ⟨k, rfl⟩ : ∃ k', k = k' + 1 := ⟨k - 1, by omega⟩
    have hmem : b ∈ rest := List.mem_of_mem_drop (List.mem_of_mem_take hb)
    exact Double.isFinite_stored.mp (hfinite b.header (hrest ▸ List.mem_map_of_mem hmem))
  obtain ⟨m, -, hm, hend⟩ := hstores.addReceived env hC k (rest.length + 1) hsent
  have hall : ((genesisBlock started :: rest).drop k).take (rest.length + 1) = (storedBlocks env d).drop k := by
    rw [hdrop k hk, List.take_of_length_le]
    rw [List.length_drop, List.length_cons]
    omega
  rw [hall] at hm
  have hreach := hend (Nat.succ_pos _) (by omega)
  rw [List.length_cons] at hreach
  obtain ⟨m, rfl⟩ : ∃ m', m = m' + 1 := ⟨m - 1, by omega⟩
  rw [hm.getHeight hC]
  omega

end Blockchain

/-! ### Steps of a node -/

namespace Node
variable {env : Env} {n : Node} {e : Event} {K : Header → Prop} {started : Int64} {b : Block}

/-- Where the stock has one header for each height, the headers of a node only grow at the end. -/
theorem headers_step (h : n.Sprung env started K) (hK : headerLinks.Named (.bind zeroHash) K)
    (hline : ∀ x y, K x → K y → x.height = y.height → x = y) (he : Carried env K e) :
    n.blockchain.headers <+: (n.step env e).blockchain.headers := by
  have htraced := step_traced env n e
  rcases calls_cases env n e with hadds | ⟨now, msg, b, rfl, htype, hread, hcomp, hcalls⟩
  · refine htraced.keeps (P := fun d => n.blockchain.headers <+: d.headers) (fun hrows hd => ?_) (fun k hk hd => ?_)
      (List.prefix_refl _)
    · rw [headers_congr hrows]
      exact hd
    · obtain ⟨b, hadd⟩ := hadds k hk
      rw [hadd]
      refine hd.trans ?_
      by_cases ha : k.1.Appends b
      · rw [exec, headers_of_appends ha]
        exact List.prefix_append _ _
      · rw [exec, addBlock_of_not_appends ha]
  · -- The block has the height of the last row, so it is the header that this row holds.
    obtain ⟨hstock, hpos⟩ := carried_newBlock he htype hread
    obtain ⟨last, hlast, hkey, -⟩ := h.chain.chained.competes_of_competes hcomp
    have hheight : last.height = b.height := Int32.toInt_inj.mp hkey.symm
    have hsame : last.toHeader = b.header := by
      rcases h.chain.cases_row (List.mem_of_getLast? hlast) with rfl | ⟨hK', -⟩
      · rw [← hheight] at hpos
        exact absurd hpos (show ¬(1 : ℤ) ≤ (0 : Int32).toInt by decide)
      · exact hline _ _ hK' hstock hheight
    have hrows : (n.blockchain.replaceLastBlock env b now).2.rows = _ :=
      (replaceLastBlock_of_fresh hcomp (h.chain.freshBelow hK hcomp (valued_of_fromJson hread) hstock)).2
    rw [hcalls] at htraced
    obtain ⟨-⟩ | ⟨-, -, hdone⟩ := htraced
    obtain ⟨heq⟩ := hdone
    have hheaders : (n.step env (.message now msg)).blockchain.headers = n.blockchain.headers := by
      obtain ⟨front, hfront⟩ := List.getLast?_eq_some_iff.mp hlast
      rw [headers, heq, exec, hrows, h.chain.chained.below_eq, headers, hfront, List.dropLast_concat, List.map_append,
        List.map_append, List.map_singleton, List.map_singleton, hsame]
      rfl
    rw [hheaders]

/-- A node puts a block of its own on its chain only when it submits one, and then at the end. -/
theorem accepted_own {own : OwnEvent} (hb : b ∈ n.accepted env (.own own)) :
    ∃ now, own = .submit now ∧ (n.step env (.own own)).blockchain.headers = n.blockchain.headers ++ [b.header] := by
  obtain ⟨k, hk, hfits, rfl⟩ := mem_accepted.mp hb
  cases (react_calls env n (.own own)).2 k hk with
  | @mined now t b ht hmined hlow =>
    refine ⟨now, rfl, ?_⟩
    have hstep : (n.step env (.own (.submit now))).blockchain = (n.blockchain.addBlock b).2 := by
      simp only [step, react, ownStep, submit_of_mined ht hmined hlow]
    rw [hstep]
    exact headers_of_appends hfits

end Node

/-! ### Runs -/

theorem Message.Carries.mono {env : Env} {K K' : Header → Prop} {msg : Message} (h : msg.Carries env K)
    (hK : ∀ x, K x → K' x) : msg.Carries env K' where
  newBlock htype := by
    obtain ⟨b, hpayload, hb, hpos⟩ := h.newBlock htype
    exact ⟨b, hpayload, hK _ hb, hpos⟩
  response htype := by
    obtain ⟨bs, hpayload, hbs⟩ := h.response htype
    exact ⟨bs, hpayload, fun b hb => (hbs b hb).imp_right fun h => ⟨hK _ h.1, h.2⟩⟩

theorem Node.Sprung.mono {env : Env} {n : Node} {K K' : Header → Prop} {started : Int64} (h : n.Sprung env started K)
    (hK : ∀ x, K x → K' x) : n.Sprung env started K' where
  chain := h.chain.mono hK
  template t ht := by
    obtain ⟨⟨p, hp, hplace⟩, hroot, hlow, hhigh⟩ := h.template t ht
    exact ⟨⟨p, hp.imp_right (hK p), hplace⟩, hroot, hlow, hhigh⟩

namespace Network
variable {ι : Type} {env : Env} {s t : Network ι} {a : Action ι} {started : ι → Int64} {p : ι}

theorem Sprung.mono {K K' : Header → Prop} (h : s.Sprung env started K) (hK : ∀ x, K x → K' x) :
    s.Sprung env started K' where
  nodes i := (h.nodes i).mono hK
  sent x hx := (h.sent x hx).mono hK

/-- No other node submits a block. -/
def SubmittedBy (p : ι) (a : Action ι) : Prop :=
  ∀ i peer clients now, a = .own i peer clients (.submit now) → i = p

theorem submittedBy_own (p peer : ι) (clients : List ι) (e : OwnEvent) : SubmittedBy p (.own p peer clients e) := by
  rintro i _ _ _ heq
  cases heq
  rfl

theorem submittedBy_deliver (p : ι) (k : Nat) (clients : List ι) (now : Int64) :
    SubmittedBy p (.deliver k clients now) := fun _ _ _ _ heq => nomatch heq

/-- All blocks of the network are on the chain of one node, whose headers continue each other. -/
structure Led (env : Env) (started : ι → Int64) (p : ι) (s : Network ι) : Prop where
  sprung : s.Sprung env started (· ∈ (s.nodes p).blockchain.above)
  finite : ∀ x ∈ (s.nodes p).blockchain.above, x.difficulty.val.isFinite = true
  tree : BlockTree (· ∈ (s.nodes p).blockchain.above)

/-- Each node has the chains of another state, or longer ones. -/
def Grows (s t : Network ι) : Prop := ∀ i, (s.nodes i).blockchain.headers <+: (t.nodes i).blockchain.headers

theorem led_start (env : Env) (nodeId : ι → String) (started : ι → Int64) (p : ι) :
    (start nodeId started).Led env started p where
  sprung := supplied_start env nodeId started
  finite _ hx := absurd hx List.not_mem_nil
  tree :=
    { injective := fun _ _ hx => absurd hx List.not_mem_nil
      offRoot := fun _ hx => absurd hx List.not_mem_nil
      grown := fun _ hx => absurd hx List.not_mem_nil }

namespace Led

theorem isPrefix (h : s.Led env started p) (i : ι) :
    (s.nodes i).blockchain.above <+: (s.nodes p).blockchain.above :=
  (h.sprung.nodes p).chain.branch_above.isPrefix h.tree.toNamed (h.sprung.nodes i).chain.branch_above

variable [DecidableEq ι]

theorem grows (h : s.Led env started p) (a : Action ι) : s.Grows (s.step env a) := by
  intro i
  rcases nodes_step env s a i with hold | ⟨peer, e, hev, hnew⟩
  · rw [hold]
  · rw [hnew]
    exact Node.headers_step (h.sprung.nodes i) h.tree.toNamed
      (fun x y => (h.sprung.nodes p).chain.eq_of_height) (h.sprung.carried hev)

/-- What is mined is on the chain of the one node then, above what it had. -/
theorem mined (h : s.Led env started p) (ha : SubmittedBy p a) {x : Header} (hx : x ∈ s.mined env a) :
    x ∈ ((s.step env a).nodes p).blockchain.above := by
  cases a with
  | own i peer clients own =>
    obtain ⟨b, hb, rfl⟩ := List.mem_map.mp hx
    obtain ⟨now, rfl, hheaders⟩ := Node.accepted_own hb
    obtain rfl := ha i peer clients now rfl
    rw [step_of_event rfl]
    simp only [Function.update_self]
    rw [above, hheaders, (h.sprung.nodes i).chain.headers_eq, List.cons_append, List.tail_cons]
    exact List.mem_append_right _ (List.mem_singleton_self _)
  | deliver k clients now => cases hx

theorem above_grows {c d : Blockchain} {K K' : Header → Prop} {begun : Int64} (hc : c.Sprung begun K)
    (hd : d.Sprung begun K') (h : c.headers <+: d.headers) : c.above <+: d.above := by
  rw [hc.headers_eq, hd.headers_eq] at h
  exact (List.prefix_cons_inj _).mp h

theorem step (h : s.Led env started p) (ha : SubmittedBy p a) : (s.step env a).Led env started p := by
  have hsprung : (s.step env a).Sprung env started
      fun x => x ∈ (s.nodes p).blockchain.above ∨ x ∈ s.mined env a :=
    (h.sprung.mono fun _ => Or.inl).step fun _ => Or.inr
  have hold : ∀ x ∈ (s.nodes p).blockchain.above, x ∈ ((s.step env a).nodes p).blockchain.above :=
    (above_grows (h.sprung.nodes p).chain (hsprung.nodes p).chain (h.grows a p)).subset
  have hnew := hsprung.mono fun x hx => hx.elim (hold x) (h.mined ha)
  refine ⟨hnew, fun x hx => ?_, (hnew.nodes p).chain.named, fun x hx => ?_⟩
  · rcases (hsprung.nodes p).chain.above_subset hx with hx | hx
    · exact h.finite x hx
    · cases a with
      | own i peer clients own =>
        obtain ⟨b, hb, rfl⟩ := List.mem_map.mp hx
        have hworked := Node.worked_of_mined (h.sprung.nodes i) hb
        exact Double.isFinite_stored.mpr (Double.isFinite_of_between hworked.low hworked.high)
      | deliver k clients now => cases hx
  rcases (hsprung.nodes p).chain.above_subset hx with hx | hx
  · rcases h.tree.grown x hx with hroot | ⟨y, hy, hplace⟩
    · exact Or.inl hroot
    · exact Or.inr ⟨y, hold y hy, hplace⟩
  · cases a with
    | own i peer clients own =>
      obtain ⟨b, hb, rfl⟩ := List.mem_map.mp hx
      obtain ⟨y, ⟨hhash, hzero⟩ | hy, hprev, hheight⟩ := (Node.worked_of_mined (h.sprung.nodes i) hb).parent
      · refine Or.inl ⟨hprev.trans hhash, ?_⟩
        show b.height.toInt = 0 + 1
        rw [hheight, hzero]
        rfl
      · exact Or.inr ⟨y, hold y hy, hprev, hheight⟩
    | deliver k clients now => cases hx

end Led

/-! ### Runs of the network -/

theorem Grows.refl (s : Network ι) : s.Grows s := fun _ => List.prefix_refl _

theorem Grows.trans {u : Network ι} (h : s.Grows t) (h' : t.Grows u) : s.Grows u := fun i => (h i).trans (h' i)

/-- An envelope stays at its place. -/
theorem sent_at {x : Envelope ι} (h : s.sent ++ [x] <+: t.sent) : t.sent[s.sent.length]? = some x := by
  obtain ⟨rest, hrest⟩ := h
  rw [← hrest, List.append_assoc, List.getElem?_append_right (Nat.le_refl _), Nat.sub_self]
  rfl

section Runs
variable [DecidableEq ι]

theorem led_run (h : s.Led env started p) {actions : List (Action ι)} (ha : ∀ a ∈ actions, SubmittedBy p a) :
    (actions.foldl (step env) s).Led env started p ∧ s.Grows (actions.foldl (step env) s) ∧
      s.sent <+: (actions.foldl (step env) s).sent := by
  induction actions generalizing s with
  | nil => exact ⟨h, .refl s, List.prefix_refl _⟩
  | cons a actions ih =>
    rw [List.forall_mem_cons] at ha
    obtain ⟨hled, hgrows, hsent⟩ := ih (h.step ha.1) ha.2
    exact ⟨hled, (h.grows a).trans hgrows, (sent_step env s a).trans hsent⟩

theorem led_states {nodeId : ι → String} {actions : List (Action ι)} (ha : ∀ a ∈ actions, SubmittedBy p a) :
    ∀ s ∈ Transition.states (step env) (start nodeId started) actions, s.Led env started p :=
  Transition.invariant_of_steps (I := Led env started p) (C := fun _ a => SubmittedBy p a) (fun _ _ ha h => h.step ha)
    (led_start env nodeId started p) fun x hx => ha x.2 (Transition.snd_mem_of_mem_steps _ x hx)

/-- Where one node alone submits blocks, every other node stores a first part of its headers above genesis at every
    moment, whatever is sent, delayed or repeated, and the headers of every node only grow at the end. -/
theorem single_producer (env : Env) (nodeId : ι → String) (started : ι → Int64) (p : ι) (actions : List (Action ι))
    (honly : ∀ a ∈ actions, SubmittedBy p a) :
    (∀ s ∈ Transition.states (step env) (start nodeId started) actions, ∀ i,
      (s.nodes i).blockchain.above <+: (s.nodes p).blockchain.above) ∧
    (Transition.states (step env) (start nodeId started) actions).Pairwise Grows := by
  refine ⟨fun s hs i => (led_states honly s hs).isPrefix i, ?_⟩
  rw [Transition.pairwise_states_iff (R := Grows) fun _ _ _ => Grows.trans]
  exact fun x hx => (led_states honly x.1 (Transition.fst_mem_states _ x hx)).grows x.2

end Runs

end Network

end

namespace Network

attribute [local instance] Arithmetic.binary64

theorem submittedBy_sampleActions : ∀ a ∈ sampleActions, SubmittedBy "alpha" a := by
  intro a ha
  rcases List.mem_append.mp ha with ha | ha
  · obtain ⟨e, -, rfl⟩ := List.mem_map.mp ha
    exact submittedBy_own _ _ _ _
  · rcases List.mem_cons.mp ha with rfl | ha
    · exact submittedBy_deliver _ _ _ _
    · rw [List.mem_singleton.mp ha]
      exact submittedBy_deliver _ _ _ _

theorem single_producer_sampleActions :
    (sampleNetwork.nodes "beta").blockchain.above <+: (sampleNetwork.nodes "alpha").blockchain.above :=
  (single_producer Node.sampleEnv id (fun _ => 1700000000) "alpha" sampleActions submittedBy_sampleActions).1
    sampleNetwork (Transition.foldl_mem_states _ _ _) "beta"

end Network

/-! ### Catching up -/

section
variable [Arithmetic]

namespace Network
variable {ι : Type} [DecidableEq ι] {env : Env} {s t : Network ι} {a : Action ι} {started : ι → Int64} {p : ι}

theorem sent_of_reply {i peer : ι} {e : Event} {msg : Message} (hev : s.event? a = some (i, peer, e))
    (hreact : ((s.nodes i).react env e).2 = [.reply msg]) :
    (s.step env a).sent = s.sent ++ [{ sender := i, receiver := peer, message := msg }] := by
  rw [step_of_event hev, hreact]
  rfl

/-- The one node answers a request for a height that it has. -/
theorem sent_of_request (h : s.Led env started p) {k : Nat} {i : ι} {n : Node} {f : Int32} {asked : Int64}
    (clients : List ι) (now : Int64)
    (hx : s.sent[k]? = some { sender := i, receiver := p, message := n.getBlocksMessage asked f }) {m : Nat}
    (hf : f.toInt = m) (hle : f.toInt ≤ (s.nodes p).blockchain.getHeight.toInt)
    (hmax : (s.nodes p).blockchain.getHeight ≠ Int32.maxValue) :
    (s.step env (.deliver k clients now)).sent = s.sent ++
      [{ sender := p
         receiver := i
         message := (s.nodes p).blocksResponseMessage env now
           ((storedBlocks env (s.nodes p).blockchain).drop m) }] := by
  have hev : s.event? (.deliver k clients now) = some (p, i, .message now (n.getBlocksMessage asked f)) := by
    rw [event?, hx]
    rfl
  refine sent_of_reply hev ?_
  have hcomplete : (s.nodes p).blockchain.Complete env := (h.sprung.nodes p).chain.complete h.tree
  have hanswer := Node.handleGetBlocks_of_complete hcomplete now hf hle hmax
  simp only [Node.react, Node.handleMessage, Node.getBlocksMessage, hanswer]

/-- The answer brings the node to the height that its sender had, where the node is on the sender's chain. -/
theorem height_of_answer (h : s.Led env started p) {d : Blockchain} {begun : Int64}
    (hd : d.Sprung begun (· ∈ (s.nodes p).blockchain.above)) {k : Nat} {i peer : ι} {n : Node} {sent : Int64}
    (clients : List ι) (now : Int64) {m : Nat} (hx : s.sent[k]? = some
      { sender := peer, receiver := i, message := n.blocksResponseMessage env sent ((storedBlocks env d).drop m) })
    (hm : 1 ≤ m) (hle : (m : ℤ) ≤ (s.nodes i).blockchain.getHeight.toInt + 1)
    (hbegins : (s.nodes i).blockchain.above <+: d.above) :
    d.getHeight.toInt ≤ ((s.step env (.deliver k clients now)).nodes i).blockchain.getHeight.toInt := by
  have hev : s.event? (.deliver k clients now) =
      some (i, peer, .message now (n.blocksResponseMessage env sent ((storedBlocks env d).drop m))) := by
    rw [event?, hx]
    rfl
  rw [step_of_event hev]
  simp only [Function.update_self]
  exact addReceived_reaches (h.sprung.nodes i).chain hd h.tree (fun x hx => h.finite x (hd.above_subset hx)) hbegins hm
    hle

/-- The answer to a request that a node made at some moment, when the node gets it. -/
theorem above_of_answer {s₁ s₂ s₃ : Network ι} {i : ι} (h₁ : s₁.Led env started p) (h₂ : s₂.Led env started p)
    (h₃ : s₃.Led env started p) (h₁₂ : s₁.Grows s₂) (h₂₃ : s₂.Grows s₃) {k : Nat} {t₁ t₂ : Int64} {c₂ : List ι}
    (hasked : s₂.sent[k]? = some { sender := i, receiver := p, message := (s₁.nodes i).syncMessage t₁ })
    (hsent : (s₂.step env (.deliver k c₂ t₂)).sent <+: s₃.sent)
    (hmax : (s₂.nodes p).blockchain.getHeight ≠ Int32.maxValue) (c₃ : List ι) (t₃ : Int64) :
    (s₂.nodes p).blockchain.above <+:
      ((s₃.step env (.deliver s₂.sent.length c₃ t₃)).nodes i).blockchain.above := by
  have h₄ := h₃.step (submittedBy_deliver p s₂.sent.length c₃ t₃)
  have hgrow := h₃.grows (.deliver s₂.sent.length c₃ t₃)
  -- All chains are first parts of the last one of the producer, so lengths decide.
  have hp : (s₂.nodes p).blockchain.above <+:
      ((s₃.step env (.deliver s₂.sent.length c₃ t₃)).nodes p).blockchain.above :=
    Led.above_grows (h₂.sprung.nodes p).chain (h₄.sprung.nodes p).chain ((h₂₃ p).trans (hgrow p))
  refine List.prefix_of_prefix_length_le hp (h₄.isPrefix i) ?_
  have hi₁₃ := (Led.above_grows (h₁.sprung.nodes i).chain (h₃.sprung.nodes i).chain ((h₁₂ i).trans (h₂₃ i))).length_le
  have hi₃₄ := (Led.above_grows (h₃.sprung.nodes i).chain (h₄.sprung.nodes i).chain (hgrow i)).length_le
  have hp₂₃ := Led.above_grows (h₂.sprung.nodes p).chain (h₃.sprung.nodes p).chain (h₂₃ p)
  have hlen₁ := (h₁.sprung.nodes i).chain.length_above h₁.tree
  have hlen₂ := (h₂.sprung.nodes p).chain.length_above h₂.tree
  have hlen₃ := (h₃.sprung.nodes i).chain.length_above h₃.tree
  have hlen₄ := (h₄.sprung.nodes i).chain.length_above h₄.tree
  by_cases hahead : (s₂.nodes p).blockchain.above.length ≤ (s₃.nodes i).blockchain.above.length
  · omega
  · have hbegins : (s₃.nodes i).blockchain.above <+: (s₂.nodes p).blockchain.above :=
      List.prefix_of_prefix_length_le (h₃.isPrefix i) hp₂₃ (by omega)
    have hlt : (s₁.nodes i).blockchain.getHeight.toInt < (s₂.nodes p).blockchain.getHeight.toInt := by omega
    have hnext : ((s₁.nodes i).blockchain.getHeight + 1).toInt = ((s₁.nodes i).blockchain.above.length + 1 : Nat) := by
      rw [Blockchain.toInt_succ hlt, ← hlen₁]
      rfl
    have hanswer := sent_of_request h₂ c₂ t₂ hasked hnext (by omega) hmax
    have hx := sent_at (hanswer ▸ hsent)
    have hstock : (s₂.nodes p).blockchain.Sprung (started p) (· ∈ (s₃.nodes p).blockchain.above) :=
      (h₂.sprung.nodes p).chain.mono fun _ hx => hp₂₃.subset hx
    have hreach := height_of_answer h₃ hstock c₃ t₃ hx (Nat.succ_pos _) (by omega) hbegins
    omega

/-- A node asks for the blocks above its tip, the one node that submits answers, and the answer comes in, each at some
    moment of the run: then the node has all headers that the other one had when it answered. A node at the largest
    height gives no answer. -/
theorem catch_up (env : Env) (nodeId : ι → String) (started : ι → Int64) (p i : ι)
    (before between after : List (Action ι)) (c₁ c₂ c₃ : List ι) (t₁ t₂ t₃ : Int64)
    (honly : ∀ a ∈ before ++ between ++ after, SubmittedBy p a) :
    let s₁ := before.foldl (step env) (start nodeId started)
    let s₂ := between.foldl (step env) (s₁.step env (.own i p c₁ (.sync t₁)))
    let s₃ := after.foldl (step env) (s₂.step env (.deliver s₁.sent.length c₂ t₂))
    (s₂.nodes p).blockchain.getHeight ≠ Int32.maxValue →
      (s₂.nodes p).blockchain.above <+:
        ((s₃.step env (.deliver s₂.sent.length c₃ t₃)).nodes i).blockchain.above := by
  intro s₁ s₂ s₃ hmax
  rw [List.forall_mem_append, List.forall_mem_append] at honly
  obtain ⟨⟨hbefore, hbetween⟩, hafter⟩ := honly
  have hsync : SubmittedBy p (.own i p c₁ (.sync t₁)) := fun _ _ _ _ heq => nomatch heq
  obtain ⟨h₁, -, -⟩ := led_run (led_start env nodeId started p) hbefore
  obtain ⟨h₂, hgrows₂, hsent₂⟩ := led_run (h₁.step hsync) hbetween
  obtain ⟨h₃, hgrows₃, hsent₃⟩ := led_run (h₂.step (submittedBy_deliver p s₁.sent.length c₂ t₂)) hafter
  have hasked : (s₁.step env (.own i p c₁ (.sync t₁))).sent = s₁.sent ++
      [{ sender := i, receiver := p, message := (s₁.nodes i).syncMessage t₁ }] := sent_of_reply rfl rfl
  rw [hasked] at hsent₂
  exact above_of_answer h₁ h₂ h₃ ((h₁.grows _).trans hgrows₂) ((h₂.grows _).trans hgrows₃) (sent_at hsent₂) hsent₃ hmax
    c₃ t₃

end Network

end

namespace Network

attribute [local instance] Arithmetic.binary64

/-- A node without connections mines, and another one asks it. -/
theorem catch_up_forkRound :
    let mined := ((forkRound 60).map (.own "alpha" "beta" [])).foldl (step forkEnv) forkStart
    let asked := mined.step forkEnv (.own "beta" "alpha" [] (.sync 70))
    let answered := asked.step forkEnv (.deliver mined.sent.length [] 80)
    (asked.nodes "alpha").blockchain.above <+:
      ((answered.step forkEnv (.deliver asked.sent.length [] 90)).nodes "beta").blockchain.above := by
  intro mined asked answered
  refine catch_up forkEnv id (fun _ => 0) "alpha" "beta" ((forkRound 60).map (.own "alpha" "beta" [])) [] [] [] [] []
    70 80 90 (fun a ha => ?_) (by decide +kernel)
  rw [List.append_nil, List.append_nil] at ha
  obtain ⟨e, -, rfl⟩ := List.mem_map.mp ha
  exact submittedBy_own _ _ _ _

end Network

end NexusLedger
