import LevelDbProofs.Util

/-!
The `state_` array of `util/status.cc`. The values of `Code` (in `status.h`, not in the repository)
are distinct parameters; the `uint32_t` length is little-endian and `char` is signed.
-/

namespace LevelDbProofs.Util

structure Codes where
  kOk : UInt8
  kNotFound : UInt8
  kCorruption : UInt8
  kNotSupported : UInt8
  kInvalidArgument : UInt8
  kIOError : UInt8
  nodup : [kOk, kNotFound, kCorruption, kNotSupported, kInvalidArgument, kIOError].Nodup

def Codes.inOrder : Codes := ⟨0, 1, 2, 3, 4, 5, by decide⟩

def utf8 (s : String) : Bytes := s.data.flatMap String.utf8EncodeChar

theorem length_utf8 (s : String) : (utf8 s).length = s.utf8ByteSize := String.size_toUTF8 s

@[simp] theorem utf8_append (s t : String) : utf8 (s ++ t) = utf8 s ++ utf8 t := by
  simp only [utf8, String.data_append, List.flatMap_append]

theorem utf8_eq_nil_iff (s : String) : utf8 s = [] ↔ s.isEmpty = true := by
  rw [← List.length_eq_zero, length_utf8]
  simp [String.isEmpty, String.endPos, String.Pos.ext_iff]

namespace StatusState

variable (codes : Codes)

def layout (code : UInt8) (message : Bytes) : Bytes :=
  encodeFixed32 (UInt32.ofNat message.length) ++ code :: message

def joined (msg msg2 : Bytes) : Bytes :=
  msg.take (msg.length % 2 ^ 32) ++
    if msg2.length % 2 ^ 32 ≠ 0 then utf8 ": " ++ msg2.take (msg2.length % 2 ^ 32) else []

def new (code : UInt8) (msg msg2 : Bytes) : Option Bytes :=
  let len1 := msg.length % 2 ^ 32
  let len2 := msg2.length % 2 ^ 32
  let size := (len1 + if len2 ≠ 0 then 2 + len2 else 0) % 2 ^ 32
  let result := encodeFixed32 (UInt32.ofNat size) ++ code :: (msg.take len1 ++
    if len2 ≠ 0 then utf8 ": " ++ msg2.take len2 else [])
  if code = codes.kOk ∨ (size + 5) % 2 ^ 32 < result.length then none else some result

def code : Option Bytes → Option UInt8
  | none => some codes.kOk
  | some state => state[4]?

def typeName (c : UInt8) : Bytes :=
  if c = codes.kOk then utf8 "OK"
  else if c = codes.kNotFound then utf8 "NotFound: "
  else if c = codes.kCorruption then utf8 "Corruption: "
  else if c = codes.kNotSupported then utf8 "Not implemented: "
  else if c = codes.kInvalidArgument then utf8 "Invalid argument: "
  else if c = codes.kIOError then utf8 "IO error: "
  else utf8 ("Unknown code(" ++ (if c.toNat < 128 then (c.toNat : Int) else c.toNat - 256).repr ++ "): ")

def toString : Option Bytes → Option Bytes
  | none => some (utf8 "OK")
  | some state =>
    match state[4]? with
    | none => none
    | some c =>
      let length := (decodeFixed32 state).toNat
      if 5 + length ≤ state.length then some (typeName codes c ++ (state.drop 5).take length) else none

def copyState (state : Bytes) : Option Bytes :=
  if state.length < 4 then none
  else
    let n := ((decodeFixed32 state).toNat + 5) % 2 ^ 32
    if n ≤ state.length then some (state.take n) else none

variable {codes}

theorem length_layout (c : UInt8) (message : Bytes) : (layout c message).length = message.length + 5 := by
  simp only [layout, List.length_append, length_encodeFixed32, List.length_cons]
  omega

theorem length_joined (msg msg2 : Bytes) :
    (joined msg msg2).length =
      msg.length % 2 ^ 32 + if msg2.length % 2 ^ 32 ≠ 0 then 2 + msg2.length % 2 ^ 32 else 0 := by
  have h2 : (utf8 ": ").length = 2 := rfl
  unfold joined
  split_ifs <;> simp only [List.length_append, List.length_take, h2, List.length_nil] <;> omega

theorem new_eq (c : UInt8) (msg msg2 : Bytes) :
    new codes c msg msg2 =
      if c = codes.kOk ∨ 2 ^ 32 ≤ (joined msg msg2).length + 5 then none else some (layout c (joined msg msg2)) := by
  have hlen := length_joined msg msg2
  have hsize : UInt32.ofNat ((msg.length % 2 ^ 32 +
      if msg2.length % 2 ^ 32 ≠ 0 then 2 + msg2.length % 2 ^ 32 else 0) % 2 ^ 32) =
      UInt32.ofNat (joined msg msg2).length := by
    rw [uint32_eq_iff, uint32_toNat_ofNat, uint32_toNat_ofNat, hlen, Nat.mod_mod]
  have hfit : (((msg.length % 2 ^ 32 + if msg2.length % 2 ^ 32 ≠ 0 then 2 + msg2.length % 2 ^ 32 else 0) % 2 ^ 32
      + 5) % 2 ^ 32 < (joined msg msg2).length + 5) ↔ 2 ^ 32 ≤ (joined msg msg2).length + 5 := by
    rw [← hlen]
    omega
  simp only [new, hsize]
  rw [← joined, ← layout, length_layout]
  simp only [hfit]

@[simp] theorem code_layout (c : UInt8) (message : Bytes) : code codes (some (layout c message)) = some c := by
  simp [code, layout, encodeFixed32, encodeFixed]

theorem toString_layout (c : UInt8) (message : Bytes) (h : message.length < 2 ^ 32) :
    toString codes (some (layout c message)) = some (typeName codes c ++ message) := by
  have hd : (decodeFixed32 (layout c message)).toNat = message.length := by
    rw [layout, decodeFixed32_encodeFixed32, uint32_toNat_ofNat, Nat.mod_eq_of_lt h]
  have h4 : (layout c message)[4]? = some c := by simp [layout, encodeFixed32, encodeFixed]
  simp only [toString, h4, hd, length_layout]
  rw [if_pos (by omega)]
  simp [layout, encodeFixed32, encodeFixed]

theorem copyState_layout (c : UInt8) (message : Bytes) (h : message.length + 5 < 2 ^ 32) :
    copyState (layout c message) = some (layout c message) := by
  have hd : (decodeFixed32 (layout c message)).toNat = message.length := by
    rw [layout, decodeFixed32_encodeFixed32, uint32_toNat_ofNat, Nat.mod_eq_of_lt (by omega)]
  simp only [copyState, hd, length_layout, Nat.mod_eq_of_lt h, le_refl, if_true,
    if_neg (show ¬ message.length + 5 < 4 by omega)]
  rw [List.take_of_length_le (length_layout c message).le]

theorem joined_of_lt (msg msg2 : Bytes) (h1 : msg.length < 2 ^ 32) (h2 : msg2.length < 2 ^ 32) :
    joined msg msg2 = msg ++ if msg2 = [] then [] else utf8 ": " ++ msg2 := by
  simp only [joined, Nat.mod_eq_of_lt h1, Nat.mod_eq_of_lt h2, List.take_length, ne_eq, List.length_eq_zero]
  split_ifs <;> simp_all

end StatusState

open StatusState in
theorem status_state_round_trip (codes : Codes) (c : UInt8) (msg msg2 : Bytes) :
    (new codes c msg msg2 = none ↔ c = codes.kOk ∨ 2 ^ 32 ≤ (joined msg msg2).length + 5) ∧
    ∀ state, new codes c msg msg2 = some state →
      code codes (some state) = some c ∧
      StatusState.toString codes (some state) = some (typeName codes c ++ joined msg msg2) ∧
      copyState state = some state := by
  rw [new_eq]
  refine ⟨by split_ifs with h; exacts [iff_of_true rfl h, iff_of_false (by simp) h],
    fun state hs => ?_⟩
  split_ifs at hs with h
  cases hs
  simp only [not_or, not_le] at h
  exact ⟨code_layout c _, toString_layout c _ (by omega), copyState_layout c _ h.2⟩

namespace Status

variable (codes : Codes)

def codeOf : Status → UInt8
  | .ok => codes.kOk
  | .notFound _ => codes.kNotFound
  | .corruption _ => codes.kCorruption
  | .notSupported _ => codes.kNotSupported
  | .invalidArgument _ => codes.kInvalidArgument
  | .ioError _ => codes.kIOError

def message : Status → String
  | .ok => ""
  | .notFound m | .corruption m | .notSupported m | .invalidArgument m | .ioError m => m

def text : Status → String
  | .ok => "OK"
  | .notFound m => "NotFound: " ++ m
  | .corruption m => "Corruption: " ++ m
  | .notSupported m => "Not implemented: " ++ m
  | .invalidArgument m => "Invalid argument: " ++ m
  | .ioError m => "IO error: " ++ m

def state : Status → Option Bytes
  | .ok => none
  | s => some (StatusState.layout (s.codeOf codes) (utf8 s.message))

variable {codes}

theorem typeName_codeOf (s : Status) (hs : s ≠ .ok) :
    StatusState.typeName codes (s.codeOf codes) ++ utf8 s.message = utf8 s.text := by
  obtain ⟨kOk, kNotFound, kCorruption, kNotSupported, kInvalidArgument, kIOError, hnd⟩ := codes
  simp only [List.nodup_cons, List.mem_cons, List.mem_singleton, not_or] at hnd
  cases s <;> simp_all [codeOf, message, text, StatusState.typeName, eq_comm]

theorem codeOf_ne_kOk {s : Status} (hs : s ≠ .ok) : s.codeOf codes ≠ codes.kOk := by
  obtain ⟨kOk, kNotFound, kCorruption, kNotSupported, kInvalidArgument, kIOError, hnd⟩ := codes
  simp only [List.nodup_cons, List.mem_cons, List.mem_singleton, not_or] at hnd
  cases s <;> simp_all [codeOf, eq_comm]

theorem state_of_ne_ok {s : Status} (hs : s ≠ .ok) :
    s.state codes = some (StatusState.layout (s.codeOf codes) (utf8 s.message)) := by
  cases s
  · exact absurd rfl hs
  all_goals rfl

theorem utf8_message_ioErrorOf (msg msg2 : String) :
    utf8 (ioErrorOf msg msg2).message = utf8 msg ++ if utf8 msg2 = [] then [] else utf8 ": " ++ utf8 msg2 := by
  by_cases he : msg2.isEmpty = true
  · simp [ioErrorOf, message, he, (utf8_eq_nil_iff msg2).2 he]
  · simp [ioErrorOf, message, he, mt (utf8_eq_nil_iff msg2).1 he]

end Status

open StatusState in
theorem status_state_refines (codes : Codes) (s : Status) (h : (utf8 s.message).length + 5 < 2 ^ 32) :
    code codes (s.state codes) = some (s.codeOf codes) ∧
    StatusState.toString codes (s.state codes) = some (utf8 s.text) ∧
    (∀ st, s.state codes = some st → copyState st = some st) ∧
    (s ≠ .ok → new codes (s.codeOf codes) (utf8 s.message) [] = s.state codes) ∧
    ∀ msg msg2, s = Status.ioErrorOf msg msg2 →
      new codes codes.kIOError (utf8 msg) (utf8 msg2) = s.state codes := by
  by_cases hs : s = .ok
  · subst hs
    exact ⟨rfl, rfl, fun st h => (by cases h), fun h => absurd rfl h,
      fun msg msg2 h => (by simp [Status.ioErrorOf] at h)⟩
  rw [Status.state_of_ne_ok hs]
  have hc : s.codeOf codes ≠ codes.kOk := Status.codeOf_ne_kOk hs
  refine ⟨code_layout _ _, ?_, fun st hst => ?_, fun _ => ?_, fun msg msg2 he => ?_⟩
  · rw [toString_layout _ _ (by omega), Status.typeName_codeOf s hs]
  · cases hst
    exact copyState_layout _ _ h
  · rw [new_eq, joined_of_lt _ _ (by omega) (by simp)]
    simp only [hc, false_or, if_true, List.append_nil]
    rw [if_neg (by omega)]
  · subst he
    have hm := Status.utf8_message_ioErrorOf msg msg2
    have hlen : (utf8 msg).length < 2 ^ 32 ∧ (utf8 msg2).length < 2 ^ 32 := by
      rw [hm] at h
      split_ifs at h <;> simp_all <;> omega
    rw [new_eq, joined_of_lt _ _ hlen.1 hlen.2, ← hm]
    simp only [Status.codeOf, Status.ioErrorOf] at hc
    rw [if_neg (not_or.2 ⟨hc, by omega⟩)]
    rfl

open StatusState in
theorem status_state_refines_lock_held :
    (utf8 (Status.ioErrorOf "lock LOCK" "already held by process").message).length + 5 < 2 ^ 32 ∧
    code Codes.inOrder ((Status.ioErrorOf "lock LOCK" "already held by process").state Codes.inOrder) =
      some ((Status.ioErrorOf "lock LOCK" "already held by process").codeOf Codes.inOrder) ∧
    StatusState.toString Codes.inOrder ((Status.ioErrorOf "lock LOCK" "already held by process").state Codes.inOrder) =
      some (utf8 (Status.ioErrorOf "lock LOCK" "already held by process").text) ∧
    (∀ st, (Status.ioErrorOf "lock LOCK" "already held by process").state Codes.inOrder = some st →
      copyState st = some st) ∧
    (Status.ioErrorOf "lock LOCK" "already held by process" ≠ .ok →
      new Codes.inOrder ((Status.ioErrorOf "lock LOCK" "already held by process").codeOf Codes.inOrder)
        (utf8 (Status.ioErrorOf "lock LOCK" "already held by process").message) [] =
      (Status.ioErrorOf "lock LOCK" "already held by process").state Codes.inOrder) ∧
    ∀ msg msg2, Status.ioErrorOf "lock LOCK" "already held by process" = Status.ioErrorOf msg msg2 →
      new Codes.inOrder Codes.inOrder.kIOError (utf8 msg) (utf8 msg2) =
        (Status.ioErrorOf "lock LOCK" "already held by process").state Codes.inOrder :=
  ⟨by decide, status_state_refines Codes.inOrder _ (by decide)⟩

end LevelDbProofs.Util
