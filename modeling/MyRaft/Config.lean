/-
The configuration file: `load_config_from_file` (`RaftServer.cpp`) and
`split_str_boost` (`util.cpp`).

The loop reads with `getline` into an array of 255 characters, ends at a line
whose string is empty, and goes on only while the stream has not failed, which
a line that does not fit makes it do. So the servers behind a blank or a long
line are not read. `readLines` is the loop on the lines of the file.
-/
import MyRaft.Server
import MyRaft.Lib.Text
import MyRaft.Lib.Decimal
import MyRaft.Lib.Except

namespace MyRaft

open Bytes (text)
open Decimal (atoi number IsInt)

/-! ## The stream -/

/-- `std::ifstream`: what is left to read, and the bits `eofbit` and `failbit`. -/
structure IStream where
  rest : Bytes
  eof : Bool
  fail : Bool

namespace IStream

/-- `in.getline(str, n)`: the characters stored before the `'\0'`, and the stream. -/
def getline (n : Nat) (stream : IStream) : Bytes × IStream :=
  if stream.eof || stream.fail then ([], { stream with fail := true })
  else
    let str := (stream.rest.takeWhile (· != 10)).take (n - 1)
    match stream.rest.drop str.length with
    | [] => (str, ⟨[], true, str.isEmpty⟩)
    | 10 :: rest => (str, ⟨rest, false, false⟩)
    -- `n - 1` characters are stored and the line goes on
    | rest => (str, ⟨rest, false, true⟩)

/-- Bounds the turns of a loop that ends when the stream has failed. -/
def turns (stream : IStream) : Nat :=
  if stream.fail then 0 else if stream.eof then 1 else stream.rest.length + 2

theorem turns_getline {stream : IStream} {n : Nat} (h : stream.fail = false) :
    (stream.getline n).2.turns < stream.turns := by
  obtain ⟨rest, eof, fail⟩ := stream
  subst h
  cases eof with
  | true => simp [getline, turns]
  | false =>
    simp only [getline, Bool.or_self, Bool.false_eq_true, if_false]
    split
    · simp only [turns, Bool.false_eq_true, if_false, if_true]
      split <;> omega
    · rename_i tail h
      have hlen : tail.length < rest.length := by
        have := congrArg List.length h
        rw [List.length_drop, List.length_cons] at this
        omega
      simpa [turns] using hlen
    · simp [turns]

end IStream

/-- The `string` made of an array of characters. -/
def cstr (bs : Bytes) : Bytes := bs.takeWhile (· != 0)

def splitStrBoost (str : Bytes) (delim : UInt8) : List Bytes := str.splitOn delim

/-! ## Loading -/

/-- `my_exception`, by the place in `load_config_from_file` that throws it. -/
inductive ConfigExn where
  | read
  | line (str : Bytes)
deriving DecidableEq

def ConfigExn.what : ConfigExn → String
  | .read => "read config file failed"
  | .line str => "failed to read the config file line: " ++ text str

/-- What `load_config_from_file` sets. -/
structure Config where
  configuration : List Addr
  N : Int
  majority : Int
deriving DecidableEq

/-- The configuration of some servers. -/
def Config.of (servers : List Addr) : Config := ⟨servers, servers.length, (servers.length : Int) / 2 + 1⟩

/-- The loop, with what it has pushed to `configuration_`. -/
def loadServers (stream : IStream) (servers : List Addr) : Except ConfigExn (List Addr) :=
  if _hfail : stream.fail then .ok servers
  else
    let read := stream.getline 255
    let str := cstr read.1
    if str.length = 0 then .ok servers
    else
      match splitStrBoost str 58 with
      | [host, port] => loadServers read.2 (servers ++ [⟨text host, atoi port⟩])
      | _ => .error (.line str)
termination_by stream.turns
decreasing_by exact IStream.turns_getline (Bool.eq_false_iff.mpr _hfail)

/-- `load_config_from_file`, for the bytes of the file; `none` where it cannot be opened. -/
def loadConfigFromFile : Option Bytes → Except ConfigExn Config
  | none => .error .read
  | some content => do
    let configuration ← loadServers ⟨content, false, false⟩ []
    return ⟨configuration, configuration.length, (configuration.length : Int) / 2 + 1⟩

/-! ## The lines of a file -/

/-- The server of a line `host:port`, as the loop stores it. -/
def server? (str : Bytes) : Option Addr :=
  match splitStrBoost str 58 with
  | [host, port] => some ⟨text host, atoi port⟩
  | _ => none

/-- The server of a line `host:port`, as the file names it. -/
def named? (str : Bytes) : Option Addr :=
  match splitStrBoost str 58 with
  | [host, port] => some ⟨text host, number port⟩
  | _ => none

/-- The lines; a file that ends in a newline has an empty one at its end. -/
def fileLines (content : Bytes) : List Bytes := content.splitOn 10

/-- The servers some lines name, in order. -/
def servers (lines : List Bytes) : List Addr := lines.filterMap fun line => named? (cstr line)

/-- `load_config_from_file` throws, or it loads every server of the file. -/
def LoadsAll (file : Option Bytes) : Prop :=
  ∀ config, loadConfigFromFile file = .ok config →
  ∃ content, file = some content ∧ config = .of (servers (fileLines content))

/-- The loop comes to a line that is no server, and throws. -/
def Throws : List Bytes → Prop
  | [] => False
  | line :: lines =>
    let str := cstr (line.take 254)
    str ≠ [] ∧ (server? str = none ∨ line.length ≤ 254 ∧ Throws lines)

/-- An `int` holds the port of the line. -/
def PortFits (str : Bytes) : Prop := ∀ server ∈ named? str, IsInt server.port

/-- No server is behind the line that ends the loop: a blank one, or one of more than 254
characters; and the ports up to there are stored as they are. -/
def Reached : List Bytes → Prop
  | [] => True
  | line :: lines =>
    let str := cstr (line.take 254)
    if str = [] then servers (line :: lines) = []
    else
      match server? str with
      | none => True
      | some server =>
        if 254 < line.length then servers (line :: lines) = [server] else PortFits str ∧ Reached lines

/-- The loop, on lines. -/
def readLines : List Bytes → Except ConfigExn (List Addr)
  | [] => .ok []
  | line :: lines =>
    let str := cstr (line.take 254)
    if str = [] then .ok []
    else
      match server? str with
      | none => .error (.line str)
      | some server => if 254 < line.length then .ok [server] else (server :: ·) <$> readLines lines

/-- A turn of the loop. -/
theorem loadServers_turn {stream read : IStream} {line : Bytes} (hfail : stream.fail = false)
    (hread : stream.getline 255 = (line, read)) (acc : List Addr) :
    loadServers stream acc =
      if cstr line = [] then .ok acc
      else match server? (cstr line) with
        | none => .error (.line (cstr line))
        | some server => loadServers read (acc ++ [server]) := by
  rw [loadServers, hread]
  simp only [hfail, Bool.false_eq_true, dif_neg, not_false_iff, List.length_eq_zero_iff, server?]
  split
  · rfl
  · split <;> rename_i h <;> rfl

theorem loadServers_failed {stream : IStream} (hfail : stream.fail = true) (acc : List Addr) :
    loadServers stream acc = .ok acc := by
  rw [loadServers, dif_pos hfail]

/-- At the end of the file one more call of `getline` stores nothing. -/
theorem loadServers_eof {stream : IStream} (heof : stream.eof = true) (acc : List Addr) :
    loadServers stream acc = .ok acc := by
  cases hfail : stream.fail with
  | true => exact loadServers_failed hfail acc
  | false =>
    have hread : stream.getline 255 = ([], { stream with fail := true }) := by simp [IStream.getline, heof]
    rw [loadServers_turn hfail hread]
    simp [cstr]

section Getline

variable {line rest : Bytes}

theorem takeWhile_line (hline : 10 ∉ line) : (line ++ 10 :: rest).takeWhile (· != 10) = line := by
  rw [List.takeWhile_append_of_pos fun b hb => by simpa using ne_of_mem_of_not_mem hb hline]
  simp

theorem takeWhile_last (hline : 10 ∉ line) : line.takeWhile (· != 10) = line :=
  List.takeWhile_eq_self_iff.mpr fun b hb => by simpa using ne_of_mem_of_not_mem hb hline

theorem getline_line (hline : 10 ∉ line) (hlen : line.length ≤ 254) :
    IStream.getline 255 ⟨line ++ 10 :: rest, false, false⟩ = (line, ⟨rest, false, false⟩) := by
  simp [IStream.getline, takeWhile_line hline, List.take_of_length_le hlen]

theorem getline_last (hline : 10 ∉ line) (hlen : line.length ≤ 254) :
    IStream.getline 255 ⟨line, false, false⟩ = (line, ⟨[], true, line.isEmpty⟩) := by
  simp [IStream.getline, takeWhile_last hline, List.take_of_length_le hlen]

/-- A line that does not fit makes the stream fail. -/
theorem getline_long (hline : 10 ∉ line) (hlen : 254 < line.length) {content : Bytes}
    (hcontent : content = line ∨ content = line ++ 10 :: rest) :
    ∃ rest', IStream.getline 255 ⟨content, false, false⟩ = (line.take 254, ⟨rest', false, true⟩) := by
  have htake : content.takeWhile (· != 10) = line := by
    rcases hcontent with rfl | rfl
    · exact takeWhile_last hline
    · exact takeWhile_line hline
  have hmin : (line.take 254).length = 254 := by simp; omega
  obtain ⟨b, bs, hdrop⟩ : ∃ b bs, line.drop 254 = b :: bs := List.exists_cons_of_length_pos (by simp; omega)
  have hb : b ≠ 10 := fun h => hline (List.mem_of_mem_drop (i := 254) (by simp [hdrop, h]))
  have hrest : ∃ tail, content.drop 254 = b :: tail := by
    rcases hcontent with rfl | rfl
    · exact ⟨bs, hdrop⟩
    · exact ⟨bs ++ 10 :: rest, by rw [List.drop_append_of_le_length (by omega), hdrop]; rfl⟩
  obtain ⟨tail, htail⟩ := hrest
  refine ⟨b :: tail, ?_⟩
  simp only [IStream.getline, Bool.or_self, Bool.false_eq_true, if_false, htake, Nat.add_one_sub_one, hmin, htail]
  split
  · simp_all
  · rename_i h
    exact absurd (List.cons_eq_cons.mp h).1 hb
  · rfl

end Getline

/-! ## The loop reads lines -/

theorem splitOn_line {line rest : Bytes} (hline : 10 ∉ line) :
    fileLines (line ++ 10 :: rest) = line :: fileLines rest :=
  List.splitOn_append_cons_self_of_not_mem hline rest

/-- The first line of a file, and what is behind it. -/
theorem exists_line (content : Bytes) :
    ∃ line, 10 ∉ line ∧ (content = line ∧ fileLines content = [line] ∨
      ∃ rest, content = line ++ 10 :: rest ∧ fileLines content = line :: fileLines rest) := by
  have hline : 10 ∉ content.takeWhile (· != 10) := fun h => by simpa using List.mem_takeWhile_imp h
  refine ⟨_, hline, ?_⟩
  have hcontent := List.takeWhile_append_dropWhile (p := (· != 10)) (l := content)
  cases hdrop : content.dropWhile (· != 10) with
  | nil =>
    rw [hdrop, List.append_nil] at hcontent
    exact .inl ⟨hcontent.symm, by rw [hcontent] at hline ⊢; exact List.splitOn_eq_singleton hline⟩
  | cons b rest =>
    have hb : b = 10 := by simpa [hdrop] using List.head_dropWhile_not (· != 10) (l := content) (by simp [hdrop])
    subst hb
    rw [hdrop] at hcontent
    exact .inr ⟨rest, hcontent.symm, by conv_lhs => rw [← hcontent]; exact splitOn_line hline⟩

/-- **The loop is `readLines` on the lines of the file.** -/
theorem loadServers_eq (content : Bytes) (acc : List Addr) :
    loadServers ⟨content, false, false⟩ acc = (acc ++ ·) <$> readLines (fileLines content) := by
  induction hn : content.length using Nat.strong_induction_on generalizing content acc with
  | _ n ih =>
  subst hn
  obtain ⟨line, hline, hcontent⟩ := exists_line content
  have hlines : ∃ lines, fileLines content = line :: lines := by
    rcases hcontent with ⟨-, h⟩ | ⟨rest, -, h⟩
    · exact ⟨_, h⟩
    · exact ⟨_, h⟩
  obtain ⟨lines, hlines⟩ := hlines
  rw [hlines, readLines]
  by_cases hlen : 254 < line.length
  · have hform : content = line ∨ content = line ++ 10 :: content.drop (line.length + 1) := by
      rcases hcontent with ⟨h, -⟩ | ⟨rest, rfl, -⟩
      · exact .inl h
      · exact .inr (by simp)
    obtain ⟨rest', hread⟩ := getline_long hline hlen hform
    rw [loadServers_turn rfl hread]
    split
    · simp
    · cases server? (cstr (line.take 254)) with
      | none => rfl
      | some server => simp [loadServers_failed]
  · have hshort : line.length ≤ 254 := by omega
    have htake : line.take 254 = line := List.take_of_length_le hshort
    rw [htake]
    rcases hcontent with ⟨rfl, hone⟩ | ⟨rest, rfl, hmore⟩
    · have hnil : lines = [] := by simpa [hone] using hlines.symm
      subst hnil
      rw [loadServers_turn rfl (getline_last hline hshort)]
      split
      · simp
      · cases server? (cstr content) with
        | none => rfl
        | some server => simp [loadServers_eof, readLines]
    · have hrest : fileLines rest = lines := by simpa [hmore] using hlines
      rw [loadServers_turn rfl (getline_line hline hshort)]
      split
      · simp
      · cases server? (cstr line) with
        | none => rfl
        | some server =>
          have hlt : rest.length < (line ++ 10 :: rest).length := by simp; omega
          simp [ih _ hlt, hrest]

theorem loadConfigFromFile_ok {content : Bytes} {config : Config} :
    loadConfigFromFile (some content) = .ok config ↔
      ∃ configuration, readLines (fileLines content) = .ok configuration ∧ config = .of configuration := by
  simp only [loadConfigFromFile, loadServers_eq, Except.bind_eq_ok, Except.map_eq_ok, Except.pure_eq_ok]
  constructor
  · rintro ⟨_, ⟨configuration, hread, rfl⟩, rfl⟩
    exact ⟨configuration, hread, rfl⟩
  · rintro ⟨configuration, hread, rfl⟩
    exact ⟨configuration, ⟨configuration, hread, rfl⟩, rfl⟩

theorem servers_cons (line : Bytes) (lines : List Bytes) :
    servers (line :: lines) = (named? (cstr line)).toList ++ servers lines := by
  unfold servers
  cases h : named? (cstr line) <;> simp [h]

/-- The server that is stored is the one named exactly when its port fits. -/
theorem server_eq_named_iff {str : Bytes} : server? str = named? str ↔ PortFits str := by
  unfold PortFits named? server?
  split
  · simp [Decimal.atoi_eq_number_iff]
  · simp

theorem named_of_server {str : Bytes} {server : Addr} (h : server? str = some server) :
    ∃ named, named? str = some named := by
  unfold server? at h
  unfold named?
  split at h
  · exact ⟨_, rfl⟩
  · cases h

theorem throws_iff (lines : List Bytes) : Throws lines ↔ ∀ configuration, readLines lines ≠ .ok configuration := by
  induction lines with
  | nil => simp [Throws, readLines]
  | cons line lines ih =>
    simp only [Throws, readLines]
    split
    · simp [*]
    · rename_i hstr
      cases hserver : server? (cstr (line.take 254)) with
      | none => simp [hstr]
      | some server =>
        by_cases hlen : 254 < line.length
        · simp [hlen, Nat.not_le.mpr hlen]
        · simp [hstr, hlen, Nat.not_lt.mp hlen, ih, Except.map_eq_ok]

/-- What is read is all there is exactly when the loop throws, or no server is behind its end. -/
theorem readLines_iff (lines : List Bytes) :
    (∀ configuration, readLines lines = .ok configuration → configuration = servers lines) ↔
      Throws lines ∨ Reached lines := by
  induction lines with
  | nil => simp [readLines, Reached, servers]
  | cons line lines ih =>
    simp only [readLines, Reached, Throws]
    split
    · rename_i hstr
      simp only [Except.ok.injEq, forall_eq', hstr, ne_eq, not_true, false_and, false_or]
      exact eq_comm
    · rename_i hstr
      cases hserver : server? (cstr (line.take 254)) with
      | none => simp [hstr]
      | some server =>
        by_cases hlen : 254 < line.length
        · simp only [hlen, if_true, Except.ok.injEq, forall_eq', reduceCtorEq, Nat.not_le.mpr hlen, false_and,
            or_self, and_false, false_or]
          exact eq_comm
        · have htake : line.take 254 = line := List.take_of_length_le (by omega)
          rw [htake] at hserver hstr
          obtain ⟨named, hnamed⟩ := named_of_server hserver
          have hfits : server = named ↔ PortFits (cstr line) := by
            rw [← server_eq_named_iff, hserver, hnamed, Option.some.injEq]
          rw [servers_cons, hnamed, htake]
          simp only [hlen, if_false, hstr, ne_eq, not_false_eq_true, reduceCtorEq, Nat.not_lt.mp hlen,
            true_and, false_or]
          by_cases hthrows : Throws lines
          · have hno := (throws_iff lines).mp hthrows
            simp [hthrows, hno, Except.map_eq_ok]
          · obtain ⟨configuration, hread⟩ : ∃ configuration, readLines lines = .ok configuration := by
              simpa [throws_iff] using hthrows
            rw [hread] at ih
            simp only [Except.ok.injEq, forall_eq', hthrows, false_or] at ih
            simp only [hread, hthrows, false_or, ← hfits, ← ih]
            simp

/-- The number of servers and the majority that a server starts with are those of the file. -/
theorem start_majority (server : Addr) (servers : List Addr) :
    (RaftServer.start server servers).majority = (Config.of servers).majority := by
  simp [RaftServer.start, Config.of]

/-- **Loading throws or loads every server of the file exactly when none is behind a blank or a long line, and an
`int` holds each port.** -/
theorem config_loaded_iff (file : Option Bytes) :
    LoadsAll file ↔ ∀ content ∈ file, Throws (fileLines content) ∨ Reached (fileLines content) := by
  cases file with
  | none => simp [LoadsAll, loadConfigFromFile]
  | some content =>
    simp only [LoadsAll, loadConfigFromFile_ok, Option.mem_some, forall_eq', ← readLines_iff]
    constructor
    · intro h configuration hread
      obtain ⟨content', hfile, hconfig⟩ := h _ ⟨configuration, hread, rfl⟩
      cases hfile
      exact (Config.mk.injEq .. ▸ hconfig).1
    · rintro h config ⟨configuration, hread, rfl⟩
      exact ⟨content, rfl, by rw [h configuration hread]⟩

/-- "A:1", a blank line and "B:2". -/
def blankLine : Bytes := [65, 58, 49, 10, 10, 66, 58, 50]

theorem blankLine_drops :
    loadConfigFromFile (some blankLine) = .ok ⟨[⟨"A", 1⟩], 1, 1⟩ ∧
    servers (fileLines blankLine) = [⟨"A", 1⟩, ⟨"B", 2⟩] ∧ ¬ LoadsAll (some blankLine) := by
  have hload : loadConfigFromFile (some blankLine) = .ok ⟨[⟨"A", 1⟩], 1, 1⟩ :=
    loadConfigFromFile_ok.mpr ⟨[⟨"A", 1⟩], by decide, by decide⟩
  have hservers : servers (fileLines blankLine) = [⟨"A", 1⟩, ⟨"B", 2⟩] := by decide
  refine ⟨hload, hservers, fun h => ?_⟩
  obtain ⟨content, hfile, hconfig⟩ := h _ hload
  cases hfile
  rw [hservers] at hconfig
  exact absurd hconfig (by decide)

end MyRaft
