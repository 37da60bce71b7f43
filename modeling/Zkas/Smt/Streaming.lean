import Zkas.Smt.Stores

/-!
# The streaming builder

Model of `crypto/smt/src/streaming.rs`: a stack machine that takes leaves in the order of their
keys, one at a time, and hands the nodes of subtrees that are complete to a sink. Of the sinks there
is the one that only computes the root (`RootOnlyMergeSink` of `processor.rs`) and the one that
writes to the branch store (`db_sink.rs`), whose batches are written at once. The stack is listed
from its top. -/

namespace Zkas.Smt

open BitPath

/-- `StreamError`. -/
inductive StreamError (ε : Type) where
  | unsortedKey
  | duplicateKey
  | alreadyFinalized
  | notFinalized
  /-- The message names the lane. -/
  | proofFailed (lane_key : Key)
  | sink (e : ε)
  deriving DecidableEq

/-- `ChildInfo`. -/
inductive ChildInfo (D : Type) where
  | empty
  | collapsed (branch_key : BranchKey) (leaf : CollapsedLeaf D) (blue_score : ℕ)
  | internal

/-- `MergeSink`. -/
structure MergeSink (S ε D : Type) where
  merge : (left right : D) → (parent_key : BranchKey) → (left_info right_info : ChildInfo D) →
    (parent_blue_score : ℕ) → S → Except ε (D × S)
  mergeChainWithEmpty : (hash : D) → (from_depth to_depth : ℕ) → (representative_key : Key) →
    (blue_score : ℕ) → S → Except ε (D × S)
  writeCollapsed : BranchKey → CollapsedLeaf D → (blue_score : ℕ) → S → Except ε S
  recordSeal : (lane_key : Key) → (seal_depth : ℕ) → S → S

/-- `EntryKind`. -/
inductive EntryKind (D : Type) where
  | collapsed (leaf : CollapsedLeaf D)
  | internal

/-- `StackEntry`. -/
structure StackEntry (D : Type) where
  depth : ℕ
  hash : D
  representative_key : Key
  kind : EntryKind D
  max_blue_score : ℕ

/-- `child_info`. -/
def StackEntry.childInfo {D : Type} (e : StackEntry D) (child_depth : ℕ) : ChildInfo D :=
  match e.kind with
  | .collapsed leaf => .collapsed (.new child_depth e.representative_key) leaf e.max_blue_score
  | .internal => .internal

/-- `StreamingSmtBuilder`. -/
structure StreamingSmtBuilder (S D : Type) where
  stack : List (StackEntry D)
  current : Option (StackEntry D)
  remaining : ℕ
  root : Option D
  root_written : Bool
  sink : S

/-- `divergence_depth`: the leading zeros of the difference. -/
def divergenceDepth (a b : Key) : ℕ :=
  ((List.range 256).find? fun d => (a ^^^ b).getMsbD d).getD 256

/-- What changes while subtrees are sealed. -/
structure Sealing (S D : Type) where
  current : StackEntry D
  root_written : Bool
  sink : S

namespace StreamingSmtBuilder

variable {S ε D : Type} (H : SmtHasher D) (sink : MergeSink S ε D)

/-- `StreamingSmtBuilder::new`. -/
def new (total_count : ℕ) (s : S) : StreamingSmtBuilder S D where
  stack := []
  current := none
  remaining := total_count
  root := if total_count = 0 then some (H.empty DEPTH) else none
  root_written := false
  sink := s

/-- `chain_up`. -/
def chainUp (target_depth : ℕ) (s : Sealing S D) : Except (Fault (StreamError ε)) (Sealing S D) :=
  if s.current.depth ≤ target_depth then .ok s
  else
    match s.current.kind with
    | .collapsed leaf =>
      .ok { s with
        current := { s.current with depth := target_depth }
        sink := sink.recordSeal leaf.lane_key (min (target_depth + 1) (DEPTH - 1)) s.sink }
    | .internal => do
      let chain_to := target_depth + 1
      let (hash, sink) ← (if chain_to < s.current.depth then
          (sink.mergeChainWithEmpty s.current.hash s.current.depth chain_to
            s.current.representative_key s.current.max_blue_score s.sink).mapError (.err <| .sink ·)
        else .ok (s.current.hash, s.sink))
      return { s with current := { s.current with hash, depth := target_depth }, sink }

/-- `merge_pair`. -/
def mergePair (left : StackEntry D) (s : Sealing S D) :
    Except (Fault (StreamError ε)) (Sealing S D) := do
  let merge_depth := left.depth
  let parent_key := BranchKey.new merge_depth left.representative_key
  let (left_info, right_info) :=
    if merge_depth < DEPTH - 1 then
      (left.childInfo (merge_depth + 1), s.current.childInfo (merge_depth + 1))
    else (.internal, .internal)
  let parent_blue_score := max left.max_blue_score s.current.max_blue_score
  let (result, sink) ← (sink.merge left.hash s.current.hash parent_key left_info right_info
    parent_blue_score s.sink).mapError (.err <| .sink ·)
  return {
    current := { depth := merge_depth, hash := result
                 representative_key := left.representative_key, kind := .internal
                 max_blue_score := parent_blue_score }
    root_written := s.root_written || merge_depth = 0
    sink }

/-- The loop of `seal_up_to`: merge with the top of the stack while it is deep enough. -/
def sealLoop (target_depth : ℕ) : List (StackEntry D) → Sealing S D →
    Except (Fault (StreamError ε)) (List (StackEntry D) × Sealing S D)
  | [], s => .ok ([], s)
  | left :: stack, s =>
    if target_depth ≤ left.depth then do
      let s ← (if left.depth < s.current.depth then chainUp sink left.depth s else .ok s)
      let s ← mergePair sink left s
      sealLoop target_depth stack s
    else .ok (left :: stack, s)

/-- `seal_up_to`. -/
def sealUpTo (target_depth : ℕ) (stack : List (StackEntry D)) (s : Sealing S D) :
    Except (Fault (StreamError ε)) (List (StackEntry D) × Sealing S D) := do
  let (stack, s) ← sealLoop sink target_depth stack s
  let s ← (if target_depth < s.current.depth then chainUp sink target_depth s else .ok s)
  return (stack, s)

variable (b : StreamingSmtBuilder S D)

/-- `finalize`. -/
def finalize : Except (Fault (StreamError ε)) (StreamingSmtBuilder S D) :=
  match b.current with
  | none => .ok { b with root := some (H.empty DEPTH) }
  | some current => do
    let (stack, s) ← sealUpTo sink 0 b.stack
      { current, root_written := b.root_written, sink := b.sink }
    if s.current.depth ≠ 0 then .error .panic
    else
      let b := { b with stack, current := none, root_written := s.root_written, sink := s.sink }
      match s.current.kind with
      | .collapsed cl => do
        let written ← (sink.writeCollapsed (.new 0 s.current.representative_key) cl
          s.current.max_blue_score s.sink).mapError (.err <| .sink ·)
        return { b with root := some (H.leaf cl.lane_key cl.leaf_hash), sink := written }
      | .internal =>
        if s.root_written then return { b with root := some s.current.hash }
        else do
          let (result, written) ← (sink.mergeChainWithEmpty s.current.hash 1 0
            s.current.representative_key s.current.max_blue_score s.sink).mapError (.err <| .sink ·)
          return { b with root := some result, sink := written }

/-- `feed`. -/
def feed (lane_key : Key) (leaf_hash : D) (blue_score : ℕ) :
    Except (Fault (StreamError ε)) (StreamingSmtBuilder S D) :=
  if b.root.isSome then .error (.err .alreadyFinalized)
  else do
    let b ← (match b.current with
      | none => .ok b
      | some prev =>
        if lane_key ≤ prev.representative_key then
          .error (.err (if lane_key = prev.representative_key then .duplicateKey else .unsortedKey))
        else do
          let (stack, s) ← sealUpTo sink (divergenceDepth prev.representative_key lane_key) b.stack
            { current := prev, root_written := b.root_written, sink := b.sink }
          return { b with stack := s.current :: stack, root_written := s.root_written
                          sink := s.sink })
    -- `remaining -= 1`
    if b.remaining = 0 then .error .panic
    else
      let b := { b with
        remaining := b.remaining - 1
        current := some { depth := DEPTH, hash := H.leaf lane_key leaf_hash
                          representative_key := lane_key
                          kind := .collapsed { lane_key, leaf_hash },
                          max_blue_score := blue_score } }
      if b.remaining = 0 then finalize H sink b else return b

/-- `finish`. -/
def finish : Except (Fault (StreamError ε)) (D × S) :=
  match b.root with
  | some root => .ok (root, b.sink)
  | none => .error (.err .notFinalized)

end StreamingSmtBuilder

/-! ## Sinks -/

section

variable {S ε D : Type} (H : SmtHasher D)

/-- The digest one level up along a key, next to an empty subtree. -/
def chainNode (representative_key : Key) (d : ℕ) (hash : D) : D :=
  if bitAt representative_key d then H.node (H.empty (DEPTH - 1 - d)) hash
  else H.node hash (H.empty (DEPTH - 1 - d))

/-- The loop of `merge_chain_with_empty` from depth `to_depth + n` down to `to_depth`. -/
def chainLoop (step : ℕ → D → S → Except ε (D × S)) (to_depth : ℕ) : ℕ → D → S → Except ε (D × S)
  | 0, hash, s => .ok (hash, s)
  | n + 1, hash, s => do
    let (hash, s) ← step (to_depth + n) hash s
    chainLoop step to_depth n hash s

/-- `RootOnlyMergeSink`. -/
def RootOnlyMergeSink : MergeSink Unit Empty D where
  merge left right _ _ _ _ s := .ok (H.node left right, s)
  mergeChainWithEmpty hash from_depth to_depth representative_key _ s :=
    chainLoop (fun d hash s => .ok (chainNode H representative_key d hash, s)) to_depth
      (from_depth - to_depth) hash s
  writeCollapsed _ _ _ s := .ok s
  recordSeal _ _ s := s

/-- `DbSink`. -/
structure DbSink (B D : Type) where
  branch_version : VersionStore BranchKey B (Option (Node D))
  block_hash : B
  nodes_written : ℕ
  lane_seal_depth : AList fun _ : Key => ℕ

variable {B : Type} [DecidableEq B]

namespace DbSink

/-- `write_node`. -/
def writeNode (bk : BranchKey) (node : Node D) (blue_score : ℕ) (s : DbSink B D) : DbSink B D :=
  { s with
    branch_version := s.branch_version.insert ⟨bk, blue_score, s.block_hash⟩ (some node)
    nodes_written := s.nodes_written + 1 }

/-- `write_collapsed_child`. -/
def writeCollapsedChild (info : ChildInfo D) (s : DbSink B D) : DbSink B D :=
  match info with
  | .collapsed branch_key leaf blue_score => s.writeNode branch_key (.collapsed leaf) blue_score
  | _ => s

/-- `seal_depth_for`. -/
def sealDepthFor (s : DbSink B D) (lane_key : Key) : Option ℕ := s.lane_seal_depth.lookup lane_key

/-- `forget_lanes`. -/
def forgetLanes (s : DbSink B D) (lane_keys : List Key) : DbSink B D :=
  { s with lane_seal_depth := lane_keys.foldl (fun m k => m.erase k) s.lane_seal_depth }

/-- `impl MergeSink for DbSink`. -/
def mergeSink : MergeSink (DbSink B D) Empty D where
  merge left right parent_key left_info right_info parent_blue_score s :=
    let parent_hash := H.node left right
    .ok (parent_hash, ((s.writeCollapsedChild left_info).writeCollapsedChild right_info).writeNode
      parent_key (.internal parent_hash) parent_blue_score)
  mergeChainWithEmpty hash from_depth to_depth representative_key blue_score s :=
    chainLoop (fun d hash s =>
        let current_hash := chainNode H representative_key d hash
        .ok (current_hash,
          s.writeNode (.new d representative_key) (.internal current_hash) blue_score))
      to_depth (from_depth - to_depth) hash s
  writeCollapsed branch_key leaf blue_score s :=
    .ok (s.writeNode branch_key (.collapsed leaf) blue_score)
  recordSeal lane_key seal_depth s :=
    let seal_depth := match s.lane_seal_depth.lookup lane_key with
      | some d => max d seal_depth
      | none => seal_depth
    { s with lane_seal_depth := s.lane_seal_depth.insert lane_key seal_depth }

end DbSink

end

/-- The leaves are fed one after the other and the root is taken. -/
def streamLeaves {S ε D : Type} (H : SmtHasher D) (sink : MergeSink S ε D) (s : S)
    (leaves : List (Key × D × ℕ)) : Except (Fault (StreamError ε)) (D × S) := do
  let b ← leaves.foldlM (fun b (lane_key, leaf_hash, blue_score) =>
      StreamingSmtBuilder.feed H sink b lane_key leaf_hash blue_score)
    (StreamingSmtBuilder.new H leaves.length s)
  StreamingSmtBuilder.finish b

end Zkas.Smt
