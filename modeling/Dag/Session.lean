import Dag.Completion

namespace Dag

/-!
# The receive session of `dsync`

A session receives the blocks of one manifest.  `ReceiveBlock` writes a payload through the
block API, compares the CID the store derives with the hash the sender claimed, and on a match
marks every node of the manifest with that hash as complete.  The outcome of the write is an
input of the model: the error of `Put`, or the CID string of the stored block.

The session id, the context, the node getter and the progress channel are left out of the
session record: no modelled method reads them, and the notification goroutine is concurrency
this shallow embedding does not describe.  The generator of session ids, `randStringBytesMask`,
is modelled at the end of the module, with the values of `rand.Int63()` as an input.

A run is a sequence of `ReceiveBlock` calls; its invariant is that the progress vector stays
aligned with the manifest and marks exactly the nodes some call accepted.
-/

/-- `ReceiveResponseStatus`. -/
inductive ReceiveResponseStatus where
  | statusErrored
  | statusOk
  | statusRetry
  deriving Repr, DecidableEq

/-- `ReceiveResponse`. -/
structure ReceiveResponse where
  hash : String
  status : ReceiveResponseStatus
  err : Option String
  deriving Repr, DecidableEq

/-- `session`, without the fields no modelled function reads. -/
structure Session where
  pin : Bool
  mfst : Manifest
  diff : Manifest
  prog : Completion
  deriving Repr, DecidableEq

/-- `newSession`: the diff is the whole manifest, so every block starts missing. -/
def newSession (mfst : Manifest) (pinOnComplete : Bool) : Session :=
  let diff := mfst
  { pin := pinOnComplete, mfst := mfst, diff := diff, prog := newCompletion mfst diff }

/-- The error text of a hash mismatch in `ReceiveBlock`. -/
def hashMismatch (expected got : String) : String :=
  "hash mismatch. expected: \x27" ++ expected ++ "\x27, got: \x27" ++ got ++ "\x27"

/-- `for i, h := range s.mfst.Nodes { if hash == h { s.prog[i] = 100 } }`. -/
def markReceived (hash : String) : Nat → List String → Completion → Completion
  | _, [], prog => prog
  | i, h :: rest, prog => markReceived hash (i + 1) rest (if hash = h then prog.set i 100 else prog)

/-- `ReceiveBlock`, given what `Put` did with the payload. -/
def Session.receiveBlock (s : Session) (hash : String) (put : Except String String) :
    ReceiveResponse × Session :=
  match put with
  | .error err => (⟨hash, .statusRetry, some err⟩, s)
  | .ok id =>
      if id ≠ hash then
        (⟨hash, .statusErrored, some (hashMismatch hash id)⟩, s)
      else
        (⟨hash, .statusOk, none⟩, { s with prog := markReceived hash 0 s.mfst.nodes s.prog })

/-- `session.Complete`. -/
def Session.complete (s : Session) : Bool :=
  s.prog.complete

/-- A run of `ReceiveBlock` calls, each given the claimed hash and the outcome of its `Put`. -/
def Session.receiveAll (s : Session) :
    List (String × Except String String) → List ReceiveResponse × Session
  | [] => ([], s)
  | (hash, put) :: calls =>
      let (response, s) := s.receiveBlock hash put
      let (responses, s) := s.receiveAll calls
      (response :: responses, s)

/-! ## One call -/

/-- `markReceived` sets to 100 exactly the entries whose node, counted from position `i`, has
the received hash. -/
theorem getElem?_markReceived (hash : String) (nodes : List String) (prog : Completion)
    (i k : Nat) :
    (markReceived hash i nodes prog)[k]? =
      if i ≤ k ∧ nodes[k - i]? = some hash then prog[k]?.map fun _ => 100 else prog[k]? := by
  induction nodes generalizing i prog with
  | nil =>
      simp [markReceived]
  | cons h rest inductionHypothesis =>
      rw [markReceived, inductionHypothesis]
      rcases Nat.lt_trichotomy k i with before | same | after
      · have untouched : i ≠ k := by omega
        by_cases hit : hash = h <;>
          simp [hit, untouched, show ¬ i + 1 ≤ k by omega, show ¬ i ≤ k by omega]
      · subst same
        by_cases hit : hash = h
        · simp [hit, List.getElem?_set']
          rfl
        · simp [hit, Ne.symm hit]
      · have untouched : i ≠ k := by omega
        have shifted : k - i = k - (i + 1) + 1 := by omega
        by_cases hit : hash = h <;>
          simp [hit, untouched, show i + 1 ≤ k by omega, show i ≤ k by omega, shifted]

/-- `markReceived` keeps the length of the progress vector. -/
theorem length_markReceived (hash : String) (nodes : List String) (prog : Completion) (i : Nat) :
    (markReceived hash i nodes prog).length = prog.length := by
  induction nodes generalizing i prog with
  | nil =>
      rfl
  | cons h rest inductionHypothesis =>
      rw [markReceived, inductionHypothesis]
      split <;> simp

/-- The response `ReceiveBlock` owes a call: `Retry` when the write failed, `Errored` when the
stored block has another CID than the claimed hash, and `Ok` when it has the claimed one. -/
def Answers (call : String × Except String String) (response : ReceiveResponse) : Prop :=
  response.hash = call.1 ∧
    (response.status = .statusRetry ↔ ∃ err, call.2 = .error err) ∧
    (response.status = .statusErrored ↔ ∃ id, call.2 = .ok id ∧ id ≠ call.1) ∧
    (response.status = .statusOk ↔ call.2 = .ok call.1)

/-- `ReceiveBlock` answers every call as it owes. -/
theorem receiveBlock_answers (s : Session) (hash : String) (put : Except String String) :
    Answers (hash, put) (s.receiveBlock hash put).1 := by
  cases put with
  | error err =>
      simp [Session.receiveBlock, Answers]
  | ok id =>
      by_cases matched : id = hash <;> simp [Session.receiveBlock, Answers, matched]

/-- `ReceiveBlock` changes only the progress vector, and that only on an accepted block. -/
theorem receiveBlock_state (s : Session) (hash : String) (put : Except String String) :
    (s.receiveBlock hash put).2 =
      if (s.receiveBlock hash put).1.status = .statusOk then
        { s with prog := markReceived hash 0 s.mfst.nodes s.prog }
      else s := by
  cases put with
  | error err =>
      simp [Session.receiveBlock]
  | ok id =>
      by_cases matched : id = hash <;> simp [Session.receiveBlock, matched]

/-! ## Runs -/

/-- Some response of a run accepted a block with hash `x`. -/
def Accepted (responses : List ReceiveResponse) (x : String) : Prop :=
  ∃ response ∈ responses, response.status = .statusOk ∧ response.hash = x

instance (responses : List ReceiveResponse) (x : String) : Decidable (Accepted responses x) :=
  inferInstanceAs (Decidable (∃ response ∈ responses, _))

/-- One call accepts a block with hash `x` exactly when it answers `Ok` for `x`. -/
theorem accepted_cons (response : ReceiveResponse) (responses : List ReceiveResponse)
    (x : String) :
    Accepted (response :: responses) x ↔
      (response.status = .statusOk ∧ response.hash = x) ∨ Accepted responses x := by
  simp [Accepted]

/-- Over any run, every call gets the response it is owed, the manifest stays, and the
progress entry of a node becomes 100 when some call accepted its hash and keeps its value
otherwise. -/
theorem receiveAll_spec (s : Session) (calls : List (String × Except String String)) :
    List.Forall₂ Answers calls (s.receiveAll calls).1 ∧
      (s.receiveAll calls).2.mfst = s.mfst ∧
      (s.receiveAll calls).2.prog.length = s.prog.length ∧
      ∀ (k : Nat) (x : String), s.mfst.nodes[k]? = some x →
        (s.receiveAll calls).2.prog[k]? =
          if Accepted (s.receiveAll calls).1 x then s.prog[k]?.map fun _ => 100
          else s.prog[k]? := by
  induction calls generalizing s with
  | nil =>
      simp [Session.receiveAll, Accepted]
  | cons call calls inductionHypothesis =>
      obtain ⟨hash, put⟩ := call
      obtain ⟨answers, sameManifest, sameLength, entries⟩ :=
        inductionHypothesis (s.receiveBlock hash put).2
      have step := receiveBlock_state s hash put
      have hashOf : (s.receiveBlock hash put).1.hash = hash := (receiveBlock_answers s hash put).1
      have firstManifest : (s.receiveBlock hash put).2.mfst = s.mfst := by
        rw [step]; split <;> rfl
      have firstLength : (s.receiveBlock hash put).2.prog.length = s.prog.length := by
        rw [step]; split <;> simp [length_markReceived]
      refine ⟨.cons (receiveBlock_answers s hash put) answers,
        sameManifest.trans firstManifest, sameLength.trans firstLength, fun k x node => ?_⟩
      simp only [Session.receiveAll, accepted_cons, hashOf]
      rw [entries k x (firstManifest ▸ node)]
      by_cases accepted : (s.receiveBlock hash put).1.status = .statusOk
      · rw [step, if_pos accepted]
        simp only [getElem?_markReceived, Nat.sub_zero, Nat.zero_le, true_and, node,
          Option.some.injEq, accepted]
        by_cases here : x = hash
        · subst here
          simp [Option.map_map, Function.comp_def]
        · simp [here, Ne.symm here]
      · rw [step, if_neg accepted]
        simp [accepted]

/-- A run accepts the hash `x` exactly when one of its calls stored a block whose CID is `x`
under the claimed hash `x`. -/
theorem accepted_iff_mem {calls : List (String × Except String String)}
    {responses : List ReceiveResponse} (answered : List.Forall₂ Answers calls responses)
    (x : String) :
    Accepted responses x ↔ (x, .ok x) ∈ calls := by
  induction answered with
  | nil =>
      simp [Accepted]
  | @cons call response calls responses answer _ inductionHypothesis =>
      obtain ⟨hash, put⟩ := call
      obtain ⟨hashOf, -, -, okIff⟩ := answer
      dsimp only at hashOf okIff
      rw [accepted_cons, inductionHypothesis, List.mem_cons, okIff, hashOf, Prod.mk.injEq]
      constructor <;> rintro (⟨first, second⟩ | later)
      · exact .inl ⟨second.symm, by rw [first, second]⟩
      · exact .inr later
      · exact .inl ⟨by rw [← second, first], first.symm⟩
      · exact .inr later

/-- A fresh session compares the manifest with itself, so every block starts missing. -/
theorem newCompletionScan_self (nodes : List String) :
    newCompletionScan nodes nodes = nodes.map fun _ => 0 := by
  induction nodes with
  | nil =>
      rfl
  | cons hash rest inductionHypothesis =>
      simp [newCompletionScan, inductionHypothesis]

/-! ## Runs from a fresh session -/

/-- `prog` has one entry per node of `nodes`: 100 for a node that is `done`, 0 for the others. -/
def Marks (nodes : List String) (done : String → Prop) [DecidablePred done] (prog : Completion) :
    Prop :=
  prog.length = nodes.length ∧
    ∀ (i : Nat) (x : String), nodes[i]? = some x → prog[i]? = some (if done x then 100 else 0)

namespace Marks

variable {nodes : List String} {done done' : String → Prop} [DecidablePred done]
  [DecidablePred done'] {prog prog' : Completion}

/-- A progress vector that marks the nodes that are `done` is complete exactly when every node
is. -/
theorem complete_iff (marks : Marks nodes done prog) :
    prog.complete = true ↔ ∀ x ∈ nodes, done x := by
  rw [Completion.complete_iff]
  constructor
  · intro full x member
    obtain ⟨i, below, rfl⟩ := List.getElem_of_mem member
    have entry := marks.2 i _ (List.getElem?_eq_getElem below)
    rw [List.getElem?_eq_getElem (marks.1 ▸ below), Option.some.injEq] at entry
    have complete := full _ (List.getElem_mem (marks.1 ▸ below))
    by_contra missing
    rw [entry, if_neg missing] at complete
    exact absurd complete (by decide)
  · intro finished bl member
    obtain ⟨i, below, rfl⟩ := List.getElem_of_mem member
    have entry := marks.2 i _ (List.getElem?_eq_getElem (marks.1 ▸ below))
    rw [List.getElem?_eq_getElem below, Option.some.injEq] at entry
    rw [entry, if_pos (finished _ (List.getElem_mem _))]

/-- Two progress vectors that mark the same nodes are equal. -/
theorem unique (marks : Marks nodes done prog) (marks' : Marks nodes done' prog')
    (same : ∀ x, done x ↔ done' x) : prog = prog' := by
  apply List.ext_getElem?
  intro i
  cases node : nodes[i]? with
  | none =>
      have beyond : nodes.length ≤ i := List.getElem?_eq_none_iff.mp node
      rw [List.getElem?_eq_none (marks.1 ▸ beyond), List.getElem?_eq_none (marks'.1 ▸ beyond)]
  | some x =>
      rw [marks.2 i x node, marks'.2 i x node]
      by_cases finished : done x
      · rw [if_pos finished, if_pos ((same x).mp finished)]
      · rw [if_neg finished, if_neg (mt (same x).mpr finished)]

end Marks

/-- After any run from a fresh session, the progress vector marks the nodes whose hash some
call had accepted. -/
theorem marks_receiveAll_newSession (mfst : Manifest) (pin : Bool)
    (calls : List (String × Except String String)) :
    Marks mfst.nodes (Accepted ((newSession mfst pin).receiveAll calls).1)
      ((newSession mfst pin).receiveAll calls).2.prog := by
  have initial : (newSession mfst pin).prog = mfst.nodes.map fun _ => 0 :=
    newCompletionScan_self mfst.nodes
  obtain ⟨-, -, sameLength, entries⟩ := receiveAll_spec (newSession mfst pin) calls
  refine ⟨by rw [sameLength, initial, List.length_map], fun i x node => ?_⟩
  rw [entries i x node, initial]
  split <;> simp only [List.getElem?_map, node, Option.map_some']

/-- The progress vector of a session after any run of `ReceiveBlock` calls: every call gets
the response it is owed (`Retry` exactly when the write failed, `Errored` exactly when the
stored CID differs from the claimed hash, `Ok` otherwise); the vector keeps one entry per node;
an entry is 100 when some call was accepted with the node's hash and 0 otherwise; the session
is complete exactly when every node was accepted; and the final vector does not depend on the
order of the calls. -/
theorem receiveAll_newSession (mfst : Manifest) (pin : Bool)
    (calls : List (String × Except String String)) :
    let run := (newSession mfst pin).receiveAll calls
    List.Forall₂ Answers calls run.1 ∧
      run.2.prog.length = mfst.nodes.length ∧
      (∀ (i : Nat) (x : String), mfst.nodes[i]? = some x →
        run.2.prog[i]? = some (if Accepted run.1 x then 100 else 0)) ∧
      (run.2.complete = true ↔ ∀ x ∈ mfst.nodes, Accepted run.1 x) ∧
      ∀ reordered, reordered.Perm calls →
        ((newSession mfst pin).receiveAll reordered).2.prog = run.2.prog := by
  obtain ⟨answers, -, -, -⟩ := receiveAll_spec (newSession mfst pin) calls
  have marks := marks_receiveAll_newSession mfst pin calls
  refine ⟨answers, marks.1, marks.2, marks.complete_iff, fun reordered permuted => ?_⟩
  obtain ⟨reorderedAnswers, -, -, -⟩ := receiveAll_spec (newSession mfst pin) reordered
  exact (marks_receiveAll_newSession mfst pin reordered).unique marks fun x => by
    rw [accepted_iff_mem reorderedAnswers, accepted_iff_mem answers, permuted.mem_iff]

/-! ## Session ids

`randStringBytesMask` draws the letters of a session id by rejection.  Every value of
`rand.Int63()` serves `letterIdxMax` rounds, each reading its low six bits and shifting them out;
a chunk below 52 names a letter of `letterBytes` and is written at `b[i]`, from the last byte
to the first, any other is skipped.  The values `rand.Int63()` returns are an input of the
model, a list; a run that needs more of them than the list holds returns none.
-/

/-- `letterBytes`. -/
def letterBytes : List Char :=
  "abcdefghijklmnopqrstuvwxyzABCDEFGHIJKLMNOPQRSTUVWXYZ".toList

/-- `letterIdxBits`: 6 bits to represent a letter index. -/
def letterIdxBits : Nat := 6

/-- `letterIdxMask`: all 1-bits, as many as `letterIdxBits`. -/
def letterIdxMask : Nat := (1 <<< letterIdxBits) - 1

/-- `letterIdxMax`: the number of letter indices fitting in 63 bits. -/
def letterIdxMax : Nat := 63 / letterIdxBits

/-- `if remain == 0 { cache, remain = rand.Int63(), letterIdxMax }`; none when no value is
left. -/
def refill (random : List Nat) (cache remain : Nat) : Option (List Nat × Nat × Nat) :=
  if remain = 0 then
    match random with
    | [] => none
    | cache :: random => some (random, cache, letterIdxMax)
  else
    some (random, cache, remain)

/-- The `for` loop of `randStringBytesMask`, with `left` for Go's `i + 1`; `fuel` bounds the
rounds. -/
def randStringLoop : Nat → List Nat → Nat → Nat → Nat → List Char → Option (List Char)
  | 0, _, _, _, _, _ => none
  | fuel + 1, random, left, cache, remain, b =>
      if left = 0 then
        some b
      else
        match refill random cache remain with
        | none => none
        | some (random, cache, remain) =>
            let idx := cache &&& letterIdxMask
            let (left, b) :=
              if idx < letterBytes.length then
                (left - 1, b.set (left - 1) (letterBytes.getD idx 'a'))
              else
                (left, b)
            randStringLoop fuel random left (cache >>> letterIdxBits) (remain - 1) b

/-- `randStringBytesMask`, given the values its calls of `rand.Int63()` return; one round per
chunk of those values, and one to leave the loop, is fuel enough. -/
def randStringBytesMask (n : Nat) (random : List Nat) : Option String :=
  match random with
  | [] => none
  | cache :: random =>
      (randStringLoop (letterIdxMax * (random.length + 1) + 1) random n cache letterIdxMax
        (List.replicate n (Char.ofNat 0))).map String.mk

/-- The letter indices the next `remain` rounds read from `cache`, low bits first. -/
def chunks (cache remain : Nat) : List Nat :=
  (List.range remain).map fun j => (cache >>> (letterIdxBits * j)) &&& letterIdxMask

/-- The letter indices the loop accepts from its current value and the values still to come. -/
def accepted (cache remain : Nat) (random : List Nat) : List Nat :=
  (chunks cache remain ++ random.flatMap fun v => chunks v letterIdxMax).filter
    (· < letterBytes.length)

/-- A round reads the low bits and leaves the rest shifted. -/
theorem chunks_succ (cache remain : Nat) :
    chunks cache (remain + 1) =
      (cache &&& letterIdxMask) :: chunks (cache >>> letterIdxBits) remain := by
  simp only [chunks, List.range_succ_eq_map, List.map_cons, List.map_map, Nat.mul_zero,
    Nat.shiftRight_zero, Function.comp_def, ← Nat.shiftRight_add, Nat.mul_succ, Nat.add_comm]

/-- The refill reads nothing new while rounds of the current value are left. -/
theorem refill_eq_some {random random' : List Nat} {cache cache' remain remain' : Nat}
    (refilled : refill random cache remain = some (random', cache', remain')) :
    0 < remain' ∧ accepted cache remain random = accepted cache' remain' random' ∧
      letterIdxMax * random'.length + remain' ≤ letterIdxMax * random.length + remain := by
  unfold refill at refilled
  split at refilled
  · next empty =>
      subst empty
      cases random with
      | nil => cases refilled
      | cons value rest =>
          simp only [Option.some.injEq, Prod.mk.injEq] at refilled
          obtain ⟨rfl, rfl, rfl⟩ := refilled
          refine ⟨by decide, by simp [accepted, chunks], ?_⟩
          simp only [List.length_cons, Nat.mul_succ]
          omega
  · next running =>
      simp only [Option.some.injEq, Prod.mk.injEq] at refilled
      obtain ⟨rfl, rfl, rfl⟩ := refilled
      exact ⟨Nat.pos_of_ne_zero running, rfl, le_rfl⟩

/-- The refill finds no value only when the current one is spent and none is left. -/
theorem refill_eq_none {random : List Nat} {cache remain : Nat}
    (refilled : refill random cache remain = none) : accepted cache remain random = [] := by
  unfold refill at refilled
  split at refilled
  · next empty =>
      subst empty
      cases random with
      | nil => rfl
      | cons value rest => cases refilled
  · cases refilled

/-- Given a round per chunk still to come, the loop writes, from position `left - 1` down, the
letters of the first `left` accepted chunks, and returns none only when fewer are left. -/
theorem randStringLoop_eq (fuel : Nat) :
    ∀ (random : List Nat) (left cache remain : Nat) (b : List Char), left ≤ b.length →
      letterIdxMax * random.length + remain < fuel →
        randStringLoop fuel random left cache remain b =
          if left ≤ (accepted cache remain random).length then
            some (((accepted cache remain random).take left).reverse.map
              (letterBytes.getD · 'a') ++ b.drop left)
          else none := by
  induction fuel with
  | zero =>
      intro _ _ _ _ _ _ enough
      omega
  | succ fuel inductionHypothesis =>
      intro random left cache remain b bounded enough
      rw [randStringLoop]
      by_cases done : left = 0
      · subst done
        simp
      rw [if_neg done]
      cases refilled : refill random cache remain with
      | none =>
          simp [refill_eq_none refilled, done]
      | some state =>
          obtain ⟨random', cache', remain'⟩ := state
          obtain ⟨positive, same, measure⟩ := refill_eq_some refilled
          obtain ⟨rounds, rfl⟩ : ∃ rounds, remain' = rounds + 1 := ⟨remain' - 1, by omega⟩
          obtain ⟨written, rfl⟩ : ∃ written, left = written + 1 := ⟨left - 1, by omega⟩
          have next : accepted cache remain random =
              if (cache' &&& letterIdxMask) < letterBytes.length then
                (cache' &&& letterIdxMask) :: accepted (cache' >>> letterIdxBits) rounds random'
              else accepted (cache' >>> letterIdxBits) rounds random' := by
            rw [same]
            unfold accepted
            rw [chunks_succ, List.cons_append, List.filter_cons]
            simp only [decide_eq_true_eq]
          dsimp only
          rw [next]
          by_cases letter : (cache' &&& letterIdxMask) < letterBytes.length
          · rw [if_pos letter, if_pos letter]
            dsimp only
            rw [inductionHypothesis _ _ _ _ _ (by simp; omega) (by omega)]
            have placed : ∀ c : Char, (b.set written c).drop written = c :: b.drop (written + 1) :=
              fun c => by
                rw [List.drop_set, if_neg (lt_irrefl written),
                  List.drop_eq_getElem_cons (by omega), Nat.sub_self, List.set_cons_zero]
            simp only [Nat.add_sub_cancel, placed, List.length_cons, Nat.add_le_add_iff_right,
              List.take_succ_cons, List.reverse_cons, List.map_append, List.map_cons,
              List.map_nil, List.append_assoc, List.singleton_append]
          · rw [if_neg letter, if_neg letter]
            exact inductionHypothesis _ _ _ _ _ bounded (by omega)

/-- The letters the chunks below 52 of `values` name, in order: ten six-bit chunks per value,
low bits first. -/
def acceptedLetters (values : List Nat) : List Char :=
  ((values.flatMap fun v => chunks v letterIdxMax).filter (· < letterBytes.length)).map
    (letterBytes.getD · 'a')

/-- For every list of values of `rand.Int63()`, `randStringBytesMask n` returns an id exactly
when the ten six-bit chunks of each value, low bits first, hold `n` chunks below 52; the id is
then the letters those first `n` chunks name, from its last byte to its first.  So every id it
returns has `n` bytes, each a letter of `letterBytes`. -/
theorem randStringBytesMask_letters (n cache : Nat) (random : List Nat) :
    randStringBytesMask n (cache :: random) =
        (if n ≤ (acceptedLetters (cache :: random)).length then
          some (String.mk ((acceptedLetters (cache :: random)).take n).reverse)
        else none) ∧
      ∀ id, randStringBytesMask n (cache :: random) = some id →
        id.length = n ∧ ∀ c ∈ id.toList, c ∈ letterBytes := by
  have run : randStringBytesMask n (cache :: random) =
      if n ≤ (acceptedLetters (cache :: random)).length then
        some (String.mk ((acceptedLetters (cache :: random)).take n).reverse)
      else none := by
    have same : acceptedLetters (cache :: random) =
        (accepted cache letterIdxMax random).map (letterBytes.getD · 'a') :=
      rfl
    rw [randStringBytesMask, same, List.length_map,
      randStringLoop_eq _ _ _ _ _ _ (by simp) (by rw [Nat.mul_succ]; omega)]
    by_cases enough : n ≤ (accepted cache letterIdxMax random).length
    · rw [if_pos enough, if_pos enough, Option.map_some', List.drop_replicate, Nat.sub_self,
        List.replicate_zero, List.append_nil, List.map_reverse, ← List.map_take]
    · rw [if_neg enough, if_neg enough]
      rfl
  refine ⟨run, fun id returned => ?_⟩
  rw [run] at returned
  split at returned
  · next enough =>
      obtain rfl := Option.some.inj returned
      refine ⟨by simp [String.length, enough], fun c member => ?_⟩
      obtain ⟨idx, chosen, rfl⟩ := List.mem_map.mp
        (List.mem_of_mem_take (List.mem_reverse.mp member))
      have letter : idx < letterBytes.length := of_decide_eq_true (List.mem_filter.mp chosen).2
      rw [List.getD_eq_getElem?_getD, List.getElem?_eq_getElem letter, Option.getD_some]
      exact List.getElem_mem _
  · cases returned

/-- The lowest chunk of `63 + 1 * 64 + 2 * 64 ^ 2` is rejected; the next three name `b`, `c`
and `a`, written from the last byte. -/
example : randStringBytesMask 3 [63 + 1 * 64 + 2 * 64 ^ 2] = some "acb" := by
  decide

end Dag
