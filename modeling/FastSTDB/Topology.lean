import FastSTDB.Sample

/-
  Processing topology — the nodes between a query plan and the cursor
  (`queryparser.cc`, `queryprocessor.cc`, `query_processing/limiter.cc`)

  The nodes of a query are objects that are linked once, when the query is
  parsed, and change their own state while samples pass. A `Node` is the link
  structure, which does not change; the states of all objects are in a `Heap`,
  together with what has reached the cursor and which nodes were visited.

  The registered node classes are a parameter: `create` looks a tag up in the
  registry and runs the constructor, and `put` of a node is a `Putting`, a program
  that may put samples into the next node and look at its answers.

  Correspondence (C++ ↔ Lean):
    `boost::property_tree::ptree`        ↔ `PTree`
    `get_value<u64>`                     ↔ the parameter `toU64`, `none` if it throws
    `create_node`, `make_sampler`        ↔ `Registry.create`, `makeSampler`
    `Limiter`, `TerminalNode`            ↔ constructors of `Node`
    the loop that feeds a processor      ↔ `Node.putAll`

  What is proved:
    1. `root_path` — the first node of the list is the head of the chain only for
       queries with at most one node.
    2. `delivered_page` — a page of the result is delivered only for queries without
       an offset, or with one that makes no difference.
-/
namespace FastSTDB
open List Option

/-! ## Property trees -/

/-- A text and an ordered list of children with keys. -/
inductive PTree where
  | node (data : String) (children : List (String × PTree))

namespace PTree

def data : PTree → String
  | node d _ => d

def children : PTree → List (String × PTree)
  | node _ cs => cs

/-- `get_child_optional` for a key without dots: the first child with the key. -/
def child (t : PTree) (key : String) : Option PTree :=
  (t.children.find? (fun c => c.1 == key)).map Prod.snd

end PTree

/-! ## Errors -/

/-- `common::Status` codes the query layer returns. -/
inductive QueryCode where
  | queryParsingError | badArg | badData | notFound | noData
  deriving DecidableEq, Repr

structure QueryError where
  code : QueryCode
  msg : String
  deriving DecidableEq, Repr

/-- What the construction of a node may throw, with `what()`. -/
inductive NodeError where
  | ptreeError (what : String)
  | queryParserError (what : String)
  | other

/-! ## Registered nodes -/

/-- What `put` of a node does: it puts samples into the next node, may look at the
answers, and answers itself. -/
inductive Putting (S σ : Type) where
  | done (answer : Bool) (state : σ)
  | forward (sample : S) (k : Bool → Putting S σ)

structure Requirements where
  groupByRequired : Bool
  terminal : Bool

/-- The registered classes; `σ` are the states of their objects. -/
structure Registry (S σ : Type) where
  create : String → PTree → Except NodeError σ
  put : σ → S → Putting S σ
  getRequirements : σ → Requirements

/-! ## Nodes -/

/-- A node with its `next_`. A sampler is known by its position in the `apply` list. -/
inductive Node where
  | terminal
  | limiter (limit offset : UInt64) (next : Node)
  | sampler (pos : Nat) (next : Node)
  deriving DecidableEq

/-- Names of the nodes of a query. -/
inductive Visit where
  | terminal | limiter | sampler (pos : Nat)
  deriving DecidableEq, Repr

def Node.path : Node → List Visit
  | .terminal => [.terminal]
  | .limiter _ _ next => .limiter :: next.path
  | .sampler pos next => .sampler pos :: next.path

/-- The states of the nodes, what the cursor was given and the nodes visited. -/
structure Heap (S σ : Type) where
  states : List σ
  counter : UInt64
  delivered : List S
  visits : List Visit

namespace Heap
variable {S σ : Type}

def visit (h : Heap S σ) (v : Visit) : Heap S σ := { h with visits := h.visits ++ [v] }

def setState (h : Heap S σ) (pos : Nat) (state : σ) : Heap S σ :=
  { h with states := h.states.set pos state }

end Heap

section Put
variable {S σ : Type}

/-- Run the `put` of the sampler at `pos`, with the `put` of the next node. -/
def Putting.run (pos : Nat) (nextPut : S → Heap S σ → Bool × Heap S σ) :
    Putting S σ → Heap S σ → Bool × Heap S σ
  | .done answer state, h => (answer, h.setState pos state)
  | .forward sample k, h =>
    let (answer, h) := nextPut sample h
    (k answer).run pos nextPut h

/-- `put`; `cursor` answers for the cursor, given what it has got before. -/
def Node.put (reg : Registry S σ) (cursor : List S → S → Bool) :
    Node → S → Heap S σ → Bool × Heap S σ
  | .terminal, s, h =>
    let h := h.visit .terminal
    (cursor h.delivered s, { h with delivered := h.delivered ++ [s] })
  | .limiter limit offset next, s, h =>
    let h := h.visit .limiter
    if h.counter < offset then (true, h)
    else if limit ≤ h.counter then (false, h)
    else next.put reg cursor s { h with counter := h.counter + 1 }
  | .sampler pos next, s, h =>
    let h := h.visit (.sampler pos)
    match h.states[pos]? with
    | none => (false, h)
    | some state => (reg.put state s).run pos (next.put reg cursor) h

/-- Samples are put into the root until it refuses one. -/
def Node.putAll (reg : Registry S σ) (cursor : List S → S → Bool) (root : Node) :
    List S → Heap S σ → Heap S σ
  | [], h => h
  | s :: ss, h =>
    match root.put reg cursor s h with
    | (true, h) => putAll reg cursor root ss h
    | (false, h) => h

def Node.getRequirements (reg : Registry S σ) (states : List σ) : Node → Requirements
  | .terminal => ⟨false, true⟩
  | .limiter _ _ _ => ⟨false, true⟩
  | .sampler pos _ => (states[pos]?.map reg.getRequirements).getD ⟨false, false⟩

end Put

/-! ## Parsing -/

section Parse
variable {S σ : Type}

/-- The object is made by its class; every exception is a parsing error. -/
def makeSampler (reg : Registry S σ) (ptree : PTree) : Except QueryError σ :=
  let created : Except NodeError σ :=
    match ptree.child "name" with
    | none => .error (.ptreeError "No such node (name)")
    | some name => reg.create name.data ptree
  match created with
  | .ok state => .ok state
  | .error (.ptreeError what) | .error (.queryParserError what) =>
    .error ⟨.queryParsingError, "Query object has invalid `apply` field " ++ what⟩
  | .error .other => .error ⟨.queryParsingError, "Query object has invalid `apply` field"⟩

/-- `limit` and `offset` of the query; `none` if a number cannot be read. -/
def parseLimitOffset (toU64 : String → Option UInt64) (ptree : PTree) : Option (UInt64 × UInt64) :=
  let limit := 0
  let offset := 0
  (match ptree.child "limit" with
   | none => some limit
   | some optlimit => toU64 optlimit.data).bind fun limit =>
    (match ptree.child "offset" with
     | none => some limit
     | some optoffset => toU64 optoffset.data).map fun limit => (limit, offset)

/-- The loop over the `apply` list, from its last item; `prev` is the node made before
and `states` are those of the nodes made so far, in the order of the list. -/
def parseApply (reg : Registry S σ) : List PTree → Node → List Node → List σ →
    Except QueryError (Node × List Node × List σ)
  | [], prev, result, states => .ok (prev, result, states)
  | item :: items, prev, result, states =>
    match makeSampler reg item with
    | .error e => .error e
    | .ok state =>
      let node := .sampler items.length prev
      parseApply reg items node (result ++ [node]) (state :: states)

def applyItems (ptree : PTree) : List PTree :=
  match ptree.child "apply" with
  | none => []
  | some apply => apply.children.map Prod.snd

/-- The list of nodes and the states of the samplers; `none` if a number of the query
cannot be read, which is thrown. -/
def parseProcessingTopology (reg : Registry S σ) (toU64 : String → Option UInt64) (ptree : PTree) :
    Option (Except QueryError (List Node × List σ)) :=
  match parseApply reg (applyItems ptree).reverse .terminal [] [] with
  | .error e => some (.error e)
  | .ok (prev, result, states) =>
    (parseLimitOffset toU64 ptree).map fun (limit, offset) =>
      let result := if limit ≠ 0 ∨ offset ≠ 0 then result ++ [.limiter limit offset prev] else result
      .ok (result ++ [.terminal], states)

end Parse

/-! ## Query processors -/

/-- `ScanQueryProcessor`; `MetadataQueryProcessor` uses the first node as well. -/
structure ScanQueryProcessor where
  rootNode : Node
  lastNode : Node

/-- The check of the constructor, from the last node: no terminal node comes before
one that is not. -/
def validOrder : List Requirements → Nat → Bool
  | [], _ => true
  | r :: rs, nnormal =>
    if r.terminal then if nnormal ≠ 0 then false else validOrder rs nnormal
    else validOrder rs (nnormal + 1)

/-- The constructor; `none` is "`nodes` shouldn't be empty". -/
def ScanQueryProcessor.new (requirements : Node → Requirements) (nodes : List Node)
    (groupByTime : Bool) : Option (Except String ScanQueryProcessor) :=
  match nodes.head?, nodes.getLast? with
  | some rootNode, some lastNode =>
    if groupByTime && nodes.any (fun n => (requirements n).groupByRequired) then
      some (.error "`group_by` required")
    else if !validOrder (nodes.reverse.map requirements) 0 then some (.error "invalid sampling order")
    else some (.ok ⟨rootNode, lastNode⟩)
  | _, _ => none

/-! ## The chain -/

section Chain
variable {S σ : Type} {reg : Registry S σ} {cursor : List S → S → Bool}

/-- Every node from here on puts the sample on once, possibly changed. -/
def Node.Forwards (reg : Registry S σ) (states : List σ) : Node → UInt64 → S → Prop
  | .terminal, _, _ => True
  | .limiter limit offset next, counter, s =>
    offset ≤ counter ∧ counter < limit ∧ next.Forwards reg states (counter + 1) s
  | .sampler pos next, counter, s => ∃ state s' state', states[pos]? = some state ∧
    reg.put state s = .forward s' (fun answer => .done answer state') ∧
    next.Forwards reg states counter s'

/-- A sample that every node puts on visits the nodes of the path, each once. -/
theorem Node.put_visits (node : Node) (s : S) (h : Heap S σ)
    (hf : node.Forwards reg h.states h.counter s) :
    (node.put reg cursor s h).2.visits = h.visits ++ node.path := by
  induction node generalizing s h with
  | terminal => rfl
  | limiter limit offset next ih =>
    obtain ⟨hoffset, hlimit, hnext⟩ := hf
    have hgo := ih s { h.visit .limiter with counter := h.counter + 1 } hnext
    simp only [Node.put, Heap.visit, not_lt.mpr hoffset, not_le.mpr hlimit]
    refine hgo.trans ?_
    simp [Heap.visit, Node.path]
  | sampler pos next ih =>
    obtain ⟨state, s', state', hstate, hput, hnext⟩ := hf
    have hgo := ih s' (h.visit (.sampler pos)) hnext
    have hstate' : (h.visit (.sampler pos)).states[pos]? = some state := hstate
    simp only [Node.put, hstate', hput, Putting.run, Heap.setState]
    rw [hgo]
    simp [Heap.visit, Node.path]

/-- The chain of samplers from position `i` up to position `i + k`, with `next` behind
them. -/
def chainFrom : Nat → Nat → Node → Node
  | _, 0, next => next
  | i, k + 1, next => .sampler i (chainFrom (i + 1) k next)

/-- The loop puts the nodes into the list as it makes them: the last of the chain
comes first. -/
theorem parseApply_spec : ∀ (items : List PTree) (k : Nat) (next : Node) (result : List Node)
    (states : List σ) {prev : Node} {nodes : List Node} {states' : List σ},
    parseApply reg items (chainFrom items.length k next) result states =
      .ok (prev, nodes, states') → prev = chainFrom 0 (items.length + k) next ∧
      nodes = result ++ (List.range items.length).reverse.map
        (fun i => chainFrom i (items.length - i + k) next) := by
  intro items
  induction items with
  | nil =>
    intro k next result states prev nodes states' h
    obtain ⟨rfl, rfl, -⟩ := h
    simp
  | cons item items ih =>
    intro k next result states prev nodes states' h
    rw [parseApply] at h
    cases hmake : makeSampler reg item with
    | error e => rw [hmake] at h; cases h
    | ok state =>
      rw [hmake] at h
      obtain ⟨hprev, hnodes⟩ := ih (k + 1) next _ _ h
      refine ⟨?_, ?_⟩
      · rw [hprev, length_cons]
        congr 1
        omega
      · rw [hnodes, append_assoc]
        congr 1
        rw [length_cons, range_succ, reverse_append, map_append]
        simp only [reverse_singleton, map_singleton]
        congr 1
        · have h0 : items.length + 1 - items.length + k = k + 1 := by omega
          rw [h0]
          rfl
        · refine map_congr_left (fun i hi => ?_)
          have hlt : i < items.length := mem_range.mp (mem_reverse.mp hi)
          congr 1
          omega

end Chain

/-! ## The root of a query -/

def PTree.number (toU64 : String → Option UInt64) (ptree : PTree) (key : String) : Option UInt64 :=
  (ptree.child key).bind fun t => toU64 t.data

/-- The path of a sample of a query with `n` items in its `apply` list. -/
def wantedPath (n : Nat) (limited : Bool) : List Visit :=
  (if limited then [.limiter] else []) ++ (List.range n).map .sampler ++ [.terminal]

/-- The query gives a limit or an offset. -/
def limited (limit offset : Option UInt64) : Bool := limit.getD 0 != 0 || offset.getD 0 != 0

section
variable {toU64 : String → Option UInt64} {ptree : PTree}

theorem number_getD {key : String} {start v : UInt64} (h : (match ptree.child key with
      | none => some start
      | some t => toU64 t.data) = some v) : (ptree.number toU64 key).getD start = v := by
  rw [PTree.number]
  cases hc : ptree.child key with
  | none =>
    rw [hc] at h
    exact some.inj h
  | some t =>
    rw [hc] at h
    rw [bind_some, show toU64 t.data = some v from h, getD_some]

theorem parseLimitOffset_eq {p : UInt64 × UInt64} (h : parseLimitOffset toU64 ptree = some p) :
    p = ((ptree.number toU64 "offset").getD ((ptree.number toU64 "limit").getD 0), 0) := by
  obtain ⟨limit, hlimit, h⟩ := bind_eq_some_iff.mp h
  obtain ⟨limit', hoffset, rfl⟩ := map_eq_some_iff.mp h
  rw [number_getD hlimit, number_getD hoffset]

end

section Root
variable {S σ : Type} {reg : Registry S σ} {toU64 : String → Option UInt64} {ptree : PTree}
  {nodes : List Node} {states : List σ}

/-- The nodes of a query: those of the `apply` list from the last, a limiter, the
terminal node. -/
theorem parseProcessingTopology_spec
    (h : parseProcessingTopology reg toU64 ptree = some (.ok (nodes, states))) :
    ∃ n limit, n = (applyItems ptree).length ∧
      limit = (ptree.number toU64 "offset").getD ((ptree.number toU64 "limit").getD 0) ∧
      nodes = (List.range n).reverse.map (fun i => chainFrom i (n - i) .terminal) ++
        (if limit = 0 then [] else [.limiter limit 0 (chainFrom 0 n .terminal)]) ++ [.terminal] := by
  unfold parseProcessingTopology at h
  split at h
  · cases h
  · next prev result states' hparse =>
    obtain ⟨hprev, hresult⟩ := parseApply_spec _ 0 .terminal [] [] hparse
    obtain ⟨⟨limit, offset⟩, hlim, heq⟩ := map_eq_some_iff.mp h
    have hp := parseLimitOffset_eq hlim
    simp only [Prod.mk.injEq] at hp
    obtain ⟨hlimit, rfl⟩ := hp
    simp only [Except.ok.injEq, Prod.mk.injEq] at heq
    refine ⟨_, limit, rfl, hlimit, ?_⟩
    rw [← heq.1, hprev, hresult]
    by_cases h0 : limit = 0 <;> simp [h0]

theorem head_nodes (n : Nat) (limit : UInt64) (rest : List Node)
    (hrest : rest = (if limit = 0 then [] else [.limiter limit 0 (chainFrom 0 n .terminal)]) ++
      [.terminal]) :
    ((List.range n).reverse.map (fun i => chainFrom i (n - i) .terminal) ++ rest).head? = some
      (if 0 < n then .sampler (n - 1) .terminal
       else if limit = 0 then .terminal else .limiter limit 0 .terminal) := by
  cases n with
  | zero =>
    rw [hrest]
    by_cases h0 : limit = 0 <;> simp [h0, chainFrom]
  | succ n =>
    simp [range_succ, chainFrom]

theorem ScanQueryProcessor.new_root {requirements : Node → Requirements} {groupByTime : Bool}
    {proc : ScanQueryProcessor}
    (h : ScanQueryProcessor.new requirements nodes groupByTime = some (.ok proc)) :
    nodes.head? = some proc.rootNode := by
  unfold ScanQueryProcessor.new at h
  split at h
  · next root last hhead hlast =>
    split at h
    · cases h
    · split at h
      · cases h
      · cases h
        exact hhead
  · cases h

/-- A limiter is made where one is wanted, unless the offset 0 hides a limit. -/
theorem limited_iff (limit offset : Option UInt64) :
    (offset.getD (limit.getD 0) ≠ 0 ↔ limited limit offset = true) ↔
      ¬ (limit.getD 0 ≠ 0 ∧ offset = some 0) := by
  cases offset with
  | none => simp [limited]
  | some o =>
    by_cases ho : o = 0
    · simp [limited]
    · simp [limited]

/-- With `n` samplers the wanted path is that of the root in two cases only. -/
theorem path_root_iff (n : Nat) (limit : UInt64) (lim : Bool) :
    (if 0 < n then Node.sampler (n - 1) .terminal
      else if limit = 0 then .terminal else .limiter limit 0 .terminal).path = wantedPath n lim ↔
      n = 0 ∧ (limit ≠ 0 ↔ lim = true) ∨ n = 1 ∧ lim = false := by
  match n with
  | 0 => by_cases h0 : limit = 0 <;> cases lim <;> simp [h0, Node.path, wantedPath]
  | 1 => cases lim <;> simp [Node.path, wantedPath]
  | n + 2 =>
    constructor
    · intro h
      have hlen := congrArg length h
      simp only [Nat.zero_lt_succ, if_true, Node.path, wantedPath, length_append,
        length_map, length_range, length_cons] at hlen
      omega
    · omega

/-- The root of a query is the head of the chain if there is no sampler, or a single
one without a limit or an offset; otherwise the first samplers and the limiter are
bypassed. -/
theorem root_path (h : parseProcessingTopology reg toU64 ptree = some (.ok (nodes, states))) :
    ∃ root, nodes.head? = some root ∧
      (∀ groupByTime proc, ScanQueryProcessor.new (Node.getRequirements reg states) nodes
        groupByTime = some (.ok proc) → proc.rootNode = root) ∧
      (∀ cursor s (heap : Heap S σ), root.Forwards reg heap.states heap.counter s →
        (root.put reg cursor s heap).2.visits = heap.visits ++ root.path) ∧
      (root.path = wantedPath (applyItems ptree).length
          (limited (ptree.number toU64 "limit") (ptree.number toU64 "offset")) ↔
        (applyItems ptree).length = 0 ∧ ¬ ((ptree.number toU64 "limit").getD 0 ≠ 0 ∧
            ptree.number toU64 "offset" = some 0) ∨ (applyItems ptree).length = 1 ∧
            limited (ptree.number toU64 "limit") (ptree.number toU64 "offset") = false) := by
  obtain ⟨n, limit, hn, hlimit, hnodes⟩ := parseProcessingTopology_spec h
  rw [append_assoc] at hnodes
  have hhead := head_nodes n limit _ rfl
  rw [← hnodes] at hhead
  refine ⟨_, hhead, ?_, fun cursor s heap hf => Node.put_visits _ s heap hf, ?_⟩
  · intro groupByTime proc hproc
    have hroot := ScanQueryProcessor.new_root hproc
    rw [hhead] at hroot
    exact (some.inj hroot).symm
  · rw [← hn, path_root_iff, hlimit, limited_iff]

end Root

/-- The node `abs` on the values of scalar samples: the sign bit is cleared. -/
def absRegistry : Registry UInt64 Unit where
  create tag _ :=
    if tag = "abs" then .ok () else .error (.queryParserError ("bad query, unknown tag: " ++ tag))
  put _ value := .forward (value &&& 0x7FFFFFFFFFFFFFFF) (fun answer => .done answer ())
  getRequirements _ := ⟨false, true⟩

def absItem : String × PTree := ("", .node "" [("name", .node "abs" [])])

theorem root_path_abs : ∃ root, [Node.sampler 0 .terminal, .terminal].head? = some root ∧
    (root.put absRegistry (fun _ _ => true) 5 ⟨[()], 0, [], []⟩).2.visits = root.path ∧
    root.path = wantedPath 1 false := by
  have hparse : parseProcessingTopology absRegistry (fun _ => none)
      (.node "" [("apply", .node "" [absItem])]) =
      some (.ok ([.sampler 0 .terminal, .terminal], [()])) := rfl
  obtain ⟨root, hroot, -, hvisits, hiff⟩ := root_path hparse
  obtain rfl : Node.sampler 0 .terminal = root := some.inj hroot
  refine ⟨_, hroot, ?_, hiff.mpr (.inr ⟨rfl, rfl⟩)⟩
  exact hvisits _ 5 ⟨[()], 0, [], []⟩ ⟨(), 5, (), rfl, rfl, trivial⟩

/-- Of two samplers the first is bypassed. -/
theorem root_path_bypassed : ∃ nodes states root,
    parseProcessingTopology absRegistry (fun _ => none)
      (.node "" [("apply", .node "" [absItem, absItem])]) = some (.ok (nodes, states)) ∧
    nodes.head? = some root ∧
    (root.put absRegistry (fun _ _ => true) 5 ⟨states, 0, [], []⟩).2.visits =
      [.sampler 1, .terminal] ∧ [.sampler 1, .terminal] ≠ wantedPath 2 false :=
  ⟨[.sampler 1 .terminal, .sampler 0 (.sampler 1 .terminal), .terminal], [(), ()],
    .sampler 1 .terminal, rfl, rfl, rfl, by decide⟩

/-! ## Pages of the result -/

section Pages
variable {σ : Type} {reg : Registry Sample σ}

def acceptAll : List Sample → Sample → Bool := fun _ _ => true

theorem putAll_terminal (stream : List Sample) (h : Heap Sample σ) :
    (Node.terminal.putAll reg acceptAll stream h).delivered = h.delivered ++ stream := by
  induction stream generalizing h with
  | nil => exact (append_nil _).symm
  | cons s ss ih =>
    rw [Node.putAll]
    simp only [Node.put, Heap.visit]
    refine (ih _).trans ?_
    rw [append_assoc, singleton_append]

theorem putAll_limiter (limit : UInt64) (stream : List Sample) (h : Heap Sample σ)
    (hc : h.counter ≤ limit) :
    ((Node.limiter limit 0 .terminal).putAll reg acceptAll stream h).delivered =
      h.delivered ++ stream.take (limit.toNat - h.counter.toNat) := by
  induction stream generalizing h with
  | nil => simp [Node.putAll]
  | cons s ss ih =>
    rw [Node.putAll]
    by_cases hlt : limit ≤ h.counter
    · have heq : limit.toNat - h.counter.toNat = 0 := by
        have := UInt64.le_iff_toNat_le.mp hlt
        omega
      simp [Node.put, Heap.visit, hlt, heq]
    · have hlt' : h.counter.toNat < limit.toNat := UInt64.lt_iff_toNat_lt.mp (not_le.mp hlt)
      have hmax := limit.toNat_lt
      have hone : (1 : UInt64).toNat = 1 := rfl
      have hnext : (h.counter + 1).toNat = h.counter.toNat + 1 := by
        rw [UInt64.toNat_add, hone, Nat.mod_eq_of_lt (by omega)]
      simp only [Node.put, Heap.visit, hlt]
      refine (ih _ ?_).trans ?_
      · rw [UInt64.le_iff_toNat_le]
        simp only [hnext]
        omega
      · have hsub : limit.toNat - h.counter.toNat = limit.toNat - (h.counter.toNat + 1) + 1 := by
          omega
        simp only [hnext]
        rw [append_assoc, hsub, take_succ_cons, singleton_append]

section
variable (limit offset : Option UInt64) (stream : List Sample)

/-- The page of a result that a query asks for; a limit of 0 is none. -/
def page : List Sample :=
  let rest := stream.drop (offset.getD 0).toNat
  if limit.getD 0 = 0 then rest else rest.take (limit.getD 0).toNat

/-- What is delivered: the number of samples is limited by the offset if there is one. -/
def delivered : List Sample :=
  let limit := offset.getD (limit.getD 0)
  if limit = 0 then stream else stream.take limit.toNat

end

/-- The two agree on all results with `n` samples if there is no offset, or nothing to
deliver, or the offset is 0 and the limit makes no difference. -/
theorem delivered_eq_page_iff (limit offset : Option UInt64) (n : Nat) :
    (∀ stream : List Sample, stream.length = n →
      delivered limit offset stream = page limit offset stream) ↔ offset = none ∨ n = 0 ∨
        offset = some 0 ∧ (limit.getD 0 = 0 ∨ n ≤ (limit.getD 0).toNat) := by
  cases offset with
  | none => simp [delivered, page]
  | some o =>
    by_cases ho : o = 0
    · subst ho
      constructor
      · intro h
        by_cases hl : limit.getD 0 = 0
        · exact .inr (.inr ⟨rfl, .inl hl⟩)
        · have hlen := congrArg length (h (replicate n ⟨0, 0, .float 0⟩) length_replicate)
          simp only [delivered, page, getD_some, if_true, hl, if_false, length_take,
            length_replicate] at hlen
          exact .inr (.inr ⟨rfl, .inr (by omega)⟩)
      · rintro (h | rfl | ⟨-, h⟩) stream hlen
        · cases h
        · simp [eq_nil_of_length_eq_zero hlen, delivered, page]
        · simp only [delivered, page, getD_some, if_true, UInt64.toNat_zero, drop_zero]
          split
          · rfl
          · next hl =>
            have := h.resolve_left hl
            rw [take_of_length_le (by omega)]
    · obtain ⟨k, hk⟩ := Nat.exists_eq_succ_of_ne_zero
        fun h => ho (UInt64.toNat_inj.mp (h.trans UInt64.toNat_zero.symm))
      constructor
      · intro h
        by_contra hn
        -- the first sample is delivered, and is on no page
        let x : Sample := ⟨1, 0, .float 0⟩
        let y : Sample := ⟨0, 0, .float 0⟩
        have heq := h (x :: replicate (n - 1) y) (by simp; omega)
        have hx : x ∈ delivered limit (some o) (x :: replicate (n - 1) y) := by
          simp only [delivered, getD_some, ho]
          rw [hk]
          exact mem_cons_self
        rw [heq] at hx
        have hdrop : x ∈ (x :: replicate (n - 1) y).drop o.toNat := by
          unfold page at hx
          split at hx
          · exact hx
          · exact mem_of_mem_take hx
        rw [hk] at hdrop
        have hxy : x = y := (mem_replicate.mp (mem_of_mem_drop hdrop)).2
        revert hxy
        decide
      · rintro (h | rfl | ⟨h, -⟩) stream hlen
        · cases h
        · simp [eq_nil_of_length_eq_zero hlen, delivered, page]
        · exact absurd (some.inj h) ho

/-- A query without an `apply` list delivers the page it asks for, of every result with
`n` samples, if it has no offset, or `n = 0`, or the offset is 0 and its limit, if
it has one, is not less than `n`: else the offset takes the place of the limit. -/
theorem delivered_page {toU64 : String → Option UInt64} {ptree : PTree} {nodes : List Node}
    {states : List σ} (happly : ptree.child "apply" = none)
    (h : parseProcessingTopology reg toU64 ptree = some (.ok (nodes, states))) :
    ∃ root, nodes.head? = some root ∧ ∀ n, ((∀ stream : List Sample, stream.length = n →
        (root.putAll reg acceptAll stream ⟨states, 0, [], []⟩).delivered =
          page (ptree.number toU64 "limit") (ptree.number toU64 "offset") stream) ↔
        ptree.number toU64 "offset" = none ∨ n = 0 ∨ ptree.number toU64 "offset" = some 0 ∧
          ((ptree.number toU64 "limit").getD 0 = 0 ∨
            n ≤ ((ptree.number toU64 "limit").getD 0).toNat)) := by
  obtain ⟨n, limit, hn, hlimit, hnodes⟩ := parseProcessingTopology_spec h
  have hzero : n = 0 := by
    rw [hn, applyItems, happly]
    rfl
  have hhead := head_nodes n limit _ rfl
  rw [append_assoc] at hnodes
  rw [← hnodes] at hhead
  subst hzero
  refine ⟨_, hhead, fun n => ?_⟩
  rw [← delivered_eq_page_iff]
  refine forall_congr' fun stream => imp_congr_right fun _ => ?_
  rw [delivered, ← hlimit]
  by_cases h0 : limit = 0
  · rw [if_neg (lt_irrefl 0), if_pos h0, putAll_terminal]
    simp [h0]
  · rw [if_neg (lt_irrefl 0), if_neg h0, putAll_limiter limit stream _ (minTimestamp_le limit)]
    simp [h0]

end Pages

def emptyRegistry : Registry Sample Unit where
  create tag _ := .error (.queryParserError ("bad query, unknown tag: " ++ tag))
  put _ s := .forward s (fun answer => .done answer ())
  getRequirements _ := ⟨false, true⟩

def smallU64 (text : String) : Option UInt64 :=
  if text = "1" then some 1 else if text = "2" then some 2 else none

theorem delivered_page_limit : ∃ root, [Node.limiter 2 0 .terminal, .terminal].head? = some root ∧
    ∀ stream : List Sample, stream.length = 3 →
      (root.putAll emptyRegistry acceptAll stream ⟨[], 0, [], []⟩).delivered =
        page (some 2) none stream := by
  have hparse : parseProcessingTopology emptyRegistry smallU64
      (.node "" [("limit", .node "2" [])]) =
      some (.ok ([.limiter 2 0 .terminal, .terminal], [])) := rfl
  obtain ⟨root, hroot, hiff⟩ := delivered_page rfl hparse
  exact ⟨root, hroot, (hiff 3).mpr (.inl rfl)⟩

/-- With limit 1 and offset 2 the first two samples are delivered, not the third. -/
theorem delivered_page_offset : ∃ nodes root, parseProcessingTopology emptyRegistry smallU64
      (.node "" [("limit", .node "1" []), ("offset", .node "2" [])]) = some (.ok (nodes, [])) ∧
    nodes.head? = some root ∧
    let stream : List Sample := [⟨0, 7, .float 0⟩, ⟨1, 7, .float 0⟩, ⟨2, 7, .float 0⟩]
    (root.putAll emptyRegistry acceptAll stream ⟨[], 0, [], []⟩).delivered = stream.take 2 ∧
    stream.take 2 ≠ page (some 1) (some 2) stream :=
  ⟨[.limiter 2 0 .terminal, .terminal], .limiter 2 0 .terminal, rfl, rfl, by decide, by decide⟩

end FastSTDB
