/-
Queries of the state machine: `get` of `EasyStateMachine.cpp` beside `apply`,
over any sequence of the two.

`get` reads the map with `operator[]`. A key that was never written is thereby
bound to 0, and is answered like one that was set to 0: `operator[]` does not
throw, so the handler that answers `ok = false` is never reached.
-/
import MyRaft.Commands

namespace MyRaft

open Bytes (ofText text IsText)
open Proto3
open StdLib (StdMap)

variable {pb : Protobuf}

/-! ## The messages -/

/-- `query_call` of `easy_state_machine.proto`. -/
structure QueryCall where
  key : String

/-- `resp_apply`. -/
structure RespApply where
  ok : Bool

/-- `resp_query`. -/
structure RespQuery where
  ok : Bool
  v : Int
deriving DecidableEq

def QueryCall.proto : Schema QueryCall where
  initial := ⟨""⟩
  fields call := stringField 1 call.key
  merge field call :=
    match field with
    | ⟨1, .bytes bs⟩ => (decide (Utf8.Valid bs), { call with key := text bs })
    | _ => (true, call)

def RespApply.proto : Schema RespApply where
  initial := ⟨false⟩
  fields resp := boolField 1 resp.ok
  merge field resp :=
    match field with
    | ⟨1, .varint n⟩ => (true, { resp with ok := n != 0 })
    | _ => (true, resp)

def RespQuery.proto : Schema RespQuery where
  initial := ⟨false, 0⟩
  fields resp := boolField 1 resp.ok ++ int32Field 2 resp.v
  merge field resp :=
    match field with
    | ⟨1, .varint n⟩ => (true, { resp with ok := n != 0 })
    | ⟨2, .varint n⟩ => (true, { resp with v := toInt32 n })
    | _ => (true, resp)

theorem QueryCall.parse_serialize (hpb : pb.WireFormat) {key : String} (hkey : IsText key)
    (hutf8 : Utf8.Valid (ofText key)) :
    pb.parseFromString QueryCall.proto (pb.serializeToString QueryCall.proto ⟨key⟩) = (true, ⟨key⟩) := by
  have hfields : QueryCall.proto.fields ⟨key⟩ = stringField 1 key ++ [] := by simp [QueryCall.proto]
  have hwell : ∀ f ∈ QueryCall.proto.fields ⟨key⟩, f.WellFormed :=
    fun f hf => stringField_wellFormed (by decide) hf
  rw [hpb.serialize, hpb.parse _ _ hwell, hfields]
  refine Eq.trans (mergeAll_stringField (f := fun s => ⟨s⟩) hkey (fun _ => rfl) rfl) ?_
  rw [if_pos hutf8]
  rfl

theorem RespQuery.parse_serialize (hpb : pb.WireFormat) {resp : RespQuery} (hv : IsInt32 resp.v) :
    pb.parseFromString RespQuery.proto (pb.serializeToString RespQuery.proto resp) = (true, resp) := by
  have hfields : RespQuery.proto.fields resp = boolField 1 resp.ok ++ (int32Field 2 resp.v ++ []) := by
    simp [RespQuery.proto]
  have hwell : ∀ f ∈ RespQuery.proto.fields resp, f.WellFormed := by
    intro f hf
    rcases List.mem_append.mp hf with hf | hf
    · exact boolField_wellFormed (by decide) hf
    · exact int32Field_wellFormed (by decide) hf
  rw [hpb.serialize, hpb.parse _ _ hwell, hfields]
  refine Eq.trans (mergeAll_boolField (f := fun b => ⟨b, 0⟩) resp.ok (fun _ => rfl) rfl) ?_
  exact Eq.trans (mergeAll_int32Field (f := fun v => ⟨resp.ok, v⟩) hv (fun _ => rfl) rfl) rfl

/-- What protobuf makes of the strings that `apply` gets and returns. -/
def EasyCodec.of (pb : Protobuf) : EasyCodec where
  parseApplyCall encoded := (pb.parseFromString ApplyCall.proto (ofText encoded)).2
  serializeRespApply ok := text (pb.serializeToString RespApply.proto ⟨ok⟩)

/-! ## Queries -/

namespace EasyStateMachine

/-- `EasyStateMachine::build_query_str`. -/
def buildQueryStr (pb : Protobuf) (key : String) : Bytes := pb.serializeToString QueryCall.proto ⟨key⟩

/-- `EasyStateMachine::get`, and the string it returns. -/
def get (pb : Protobuf) (encodedGetStr : String) (sm : EasyStateMachine) : EasyStateMachine × String :=
  let call := (pb.parseFromString QueryCall.proto (ofText encodedGetStr)).2
  let (v, map) := sm.mockStateMachine.index call.key
  (⟨map⟩, text (pb.serializeToString RespQuery.proto ⟨true, v⟩))

end EasyStateMachine

/-- A call of the state machine, with a request as a client builds it. -/
inductive Call where
  | apply (key : String) (v : Int)
  | get (key : String)
deriving DecidableEq

namespace Call

/-- The key is UTF-8, and the value an `int32`. -/
def WellFormed : Call → Prop
  | .apply key v => IsText key ∧ Utf8.Valid (ofText key) ∧ IsInt32 v
  | .get key => IsText key ∧ Utf8.Valid (ofText key)

/-- The state machine after the call. -/
def run (pb : Protobuf) (sm : EasyStateMachine) : Call → EasyStateMachine
  | .apply key v => (sm.apply (.of pb) (text (EasyStateMachine.buildApplyStr pb key v))).1
  | .get key => (sm.get pb (text (EasyStateMachine.buildQueryStr pb key))).1

/-- The state machine after some calls, from the start. -/
def runAll (pb : Protobuf) (calls : List Call) : EasyStateMachine := calls.foldl (run pb) .initial

/-- What the last `apply` to a key wrote. -/
def lastWrite (calls : List Call) (key : String) : Option Int :=
  calls.reverse.findSome? fun call => match call with
    | .apply k v => if k = key then some v else none
    | .get _ => none

/-- What a client parses of the reply to a query. -/
def answer (pb : Protobuf) (sm : EasyStateMachine) (key : String) : RespQuery :=
  (pb.parseFromString RespQuery.proto (ofText (sm.get pb (text (EasyStateMachine.buildQueryStr pb key))).2)).2

/-- Queries of the calls answer with what was written last, and change nothing. -/
def Reflects (pb : Protobuf) (calls : List Call) : Prop :=
  ∀ past key rest, calls = past ++ .get key :: rest →
    (∀ v, answer pb (runAll pb past) key = ⟨true, v⟩ ↔ lastWrite past key = some v) ∧
    (lastWrite past key = none → (answer pb (runAll pb past) key).ok = false) ∧
    run pb (runAll pb past) (.get key) = runAll pb past

variable {calls : List Call} {sm : EasyStateMachine} {key : String}

theorem runAll_concat (calls : List Call) (call : Call) :
    runAll pb (calls ++ [call]) = run pb (runAll pb calls) call := by
  simp [runAll]

theorem lastWrite_concat (calls : List Call) (call : Call) (key : String) :
    lastWrite (calls ++ [call]) key = (match call with
      | .apply k v => if k = key then some v else none
      | .get _ => none).or (lastWrite calls key) := by
  simp only [lastWrite, List.reverse_append, List.reverse_singleton, List.singleton_append, List.findSome?_cons]
  split <;> simp_all

theorem run_apply (hpb : pb.WireFormat) {v : Int} (h : (Call.apply key v).WellFormed) :
    (run pb sm (.apply key v)).mockStateMachine = sm.mockStateMachine.set key v := by
  obtain ⟨hkey, hutf8, hv⟩ := h
  simp [run, EasyStateMachine.apply, EasyCodec.of, ApplyCall.parse_serialize hpb hkey hutf8 hv]

/-- A query reads the map with `operator[]`, and always answers ok. -/
theorem get_eq (hpb : pb.WireFormat) (h : (Call.get key).WellFormed) :
    sm.get pb (text (EasyStateMachine.buildQueryStr pb key)) =
      (⟨(sm.mockStateMachine.index key).2⟩,
        text (pb.serializeToString RespQuery.proto ⟨true, sm.mockStateMachine.get key⟩)) := by
  obtain ⟨hkey, hutf8⟩ := h
  simp [EasyStateMachine.get, EasyStateMachine.buildQueryStr, QueryCall.parse_serialize hpb hkey hutf8,
    StdMap.index_fst]

/-- A key that was written is bound to what was written last. -/
theorem find?_runAll (hpb : pb.WireFormat) (hcalls : ∀ call ∈ calls, call.WellFormed) {v : Int}
    (h : lastWrite calls key = some v) : (runAll pb calls).mockStateMachine.find? key = some v := by
  induction calls using List.reverseRecOn with
  | nil => simp [lastWrite] at h
  | append_singleton calls call ih =>
    have hcall := hcalls call (by simp)
    have ih := ih fun c hc => hcalls c (by simp [hc])
    rw [lastWrite_concat] at h
    rw [runAll_concat]
    cases call with
    | apply k w =>
      rw [run_apply hpb hcall, StdMap.find?_set]
      by_cases hk : k = key
      · simpa [hk] using h
      · have hne : ¬ key = k := fun he => hk he.symm
        simp only [hne, if_false]
        exact ih (by simpa [hk] using h)
    | get k =>
      rw [run, get_eq hpb hcall]
      exact StdMap.find?_index (ih (by simpa using h)) k

/-- A key that was not written reads as 0. -/
theorem get_runAll (hpb : pb.WireFormat) (hcalls : ∀ call ∈ calls, call.WellFormed)
    (h : lastWrite calls key = none) :
    (runAll pb calls).mockStateMachine.get key = 0 := by
  induction calls using List.reverseRecOn with
  | nil => rfl
  | append_singleton calls call ih =>
    have hcall := hcalls call (by simp)
    have ih := ih fun c hc => hcalls c (by simp [hc])
    rw [lastWrite_concat] at h
    rw [runAll_concat]
    cases call with
    | apply k w =>
      have hk : ¬ k = key := by
        intro hk
        simp [hk] at h
      have hne : key ≠ k := fun he => hk he.symm
      rw [run_apply hpb hcall, StdMap.get_set_ne _ _ hne]
      exact ih (by simpa [hk] using h)
    | get k =>
      rw [run, get_eq hpb hcall, StdMap.get_index]
      exact ih (by simpa using h)

theorem apply_mem {v : Int} (h : lastWrite calls key = some v) : .apply key v ∈ calls := by
  obtain ⟨call, hmem, hcall⟩ := List.exists_of_findSome?_eq_some h
  rw [List.mem_reverse] at hmem
  cases call with
  | apply k w =>
    by_cases hk : k = key
    · obtain rfl : w = v := by simpa [hk] using hcall
      rwa [← hk]
    · simp [hk] at hcall
  | get k => simp at hcall

theorem lastWrite_isSome {w : Int} (h : .apply key w ∈ calls) : (lastWrite calls key).isSome := by
  rw [lastWrite, List.findSome?_isSome_iff]
  exact ⟨.apply key w, by simpa using h, by simp⟩

/-- Every query is answered ok, with the last value or 0. -/
theorem answer_eq (hpb : pb.WireFormat) (hcalls : ∀ call ∈ calls, call.WellFormed)
    (hget : (Call.get key).WellFormed) :
    answer pb (runAll pb calls) key = ⟨true, (lastWrite calls key).getD 0⟩ := by
  have hread : (runAll pb calls).mockStateMachine.get key = (lastWrite calls key).getD 0 := by
    cases hlast : lastWrite calls key with
    | none => exact get_runAll hpb hcalls hlast
    | some v => simp [StdMap.get, find?_runAll hpb hcalls hlast]
  have hv : IsInt32 ((lastWrite calls key).getD 0) := by
    cases hlast : lastWrite calls key with
    | none => decide
    | some v => exact (hcalls _ (apply_mem hlast)).2.2
  rw [answer, get_eq hpb hget, hread, Bytes.ofText_text, RespQuery.parse_serialize hpb hv]

theorem run_get_of_written (hpb : pb.WireFormat) (hcalls : ∀ call ∈ calls, call.WellFormed)
    (hget : (Call.get key).WellFormed) (h : (lastWrite calls key).isSome) :
    run pb (runAll pb calls) (.get key) = runAll pb calls := by
  obtain ⟨v, hv⟩ := Option.isSome_iff_exists.mp h
  have hbound : ((runAll pb calls).mockStateMachine.find? key).isSome := by simp [find?_runAll hpb hcalls hv]
  rw [run, get_eq hpb hget, StdMap.index_snd hbound]

end Call

/-- **Queries reflect the applied history exactly when each is for a key that was written before it.** -/
theorem queries_reflect_iff (pb : Protobuf) (hpb : pb.WireFormat) (calls : List Call)
    (hcalls : ∀ call ∈ calls, call.WellFormed) :
    Call.Reflects pb calls ↔
      ∀ past key rest, calls = past ++ .get key :: rest → ∃ v, .apply key v ∈ past := by
  constructor
  · intro h past key rest heq
    have hpast : ∀ call ∈ past, call.WellFormed := fun call hc => hcalls call (by simp [heq, hc])
    have hget : (Call.get key).WellFormed := hcalls _ (by simp [heq])
    obtain ⟨-, hunwritten, -⟩ := h past key rest heq
    cases hlast : Call.lastWrite past key with
    | none => simp [Call.answer_eq hpb hpast hget, hlast] at hunwritten
    | some v => exact ⟨v, Call.apply_mem hlast⟩
  · intro h past key rest heq
    have hpast : ∀ call ∈ past, call.WellFormed := fun call hc => hcalls call (by simp [heq, hc])
    have hget : (Call.get key).WellFormed := hcalls _ (by simp [heq])
    obtain ⟨w, hw⟩ := h past key rest heq
    obtain ⟨v, hlast⟩ := Option.isSome_iff_exists.mp (Call.lastWrite_isSome hw)
    refine ⟨fun u => ?_, fun hnone => ?_, Call.run_get_of_written hpb hpast hget (by simp [hlast])⟩
    · simp [Call.answer_eq hpb hpast hget, hlast]
    · rw [hlast] at hnone
      cases hnone

/-- k is set to 1, and then read. -/
def setAndRead : List Call := [.apply "k" 1, .get "k"]

theorem setAndRead_reflects : Call.Reflects protobuf setAndRead := by
  have hwell : ∀ call ∈ setAndRead, call.WellFormed := by
    intro call hcall
    simp only [setAndRead, List.mem_cons, List.not_mem_nil, or_false] at hcall
    rcases hcall with rfl | rfl
    · exact ⟨by decide, by decide, by decide⟩
    · exact ⟨by decide, by decide⟩
  refine (queries_reflect_iff protobuf protobuf_wireFormat setAndRead hwell).mpr fun past key rest heq => ?_
  match past with
  | [] => simp [setAndRead] at heq
  | [call] =>
    simp only [setAndRead, List.singleton_append, List.cons.injEq, Call.get.injEq] at heq
    obtain ⟨rfl, rfl, -⟩ := heq
    exact ⟨1, by simp⟩
  | call :: call' :: past => simp [setAndRead] at heq

/-- A key that was never written is answered ok, with 0. -/
theorem unwritten_answered : ¬ ∀ pb : Protobuf, pb.WireFormat → ∀ calls : List Call,
    (∀ call ∈ calls, call.WellFormed) → Call.Reflects pb calls := by
  intro hall
  have hget : (Call.get "k").WellFormed := ⟨by decide, by decide⟩
  have hreflects := hall protobuf protobuf_wireFormat [.get "k"] (by simpa using hget)
  have hfalse := (hreflects [] "k" [] rfl).2.1 rfl
  rw [Call.answer_eq protobuf_wireFormat (by simp) hget] at hfalse
  exact absurd hfalse (by decide)

end MyRaft
