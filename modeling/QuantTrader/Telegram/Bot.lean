import Mathlib.Data.Rat.Defs
import QuantTrader.Delivery.Cursor
import QuantTrader.StockNames.Resolve
import QuantTrader.Transition.System

/-! # The chart bot

The bot asks Telegram for updates in a loop and answers the commands of the allowed
chats. Requests fail, answers get lost and the process dies at any point; no update is
lost by it, and a process answers an update at most once.
-/

namespace QuantTrader.Telegram

open Python StockNames Delivery Transition

/-! ## Commands -/

inductive Command
  | chart (query : Text)
  | help
  deriving DecidableEq

/-- `parse_command` -/
def parseCommand (u : Unicode) (s : Text) : Option Command :=
  let s := u.strip s
  if s = [] then none
  else
    let head := s.takeWhile fun c => !u.isSpace c
    let cmd := ((u.lower head).dropWhile (· = 47)).takeWhile (· ≠ 64)
    let arg := u.strip (s.dropWhile fun c => !u.isSpace c)
    if cmd = text "차트" ∨ cmd = text "chart" then
      if arg = [] then some .help else some (.chart arg)
    else if cmd = text "help" ∨ cmd = text "start" ∨ cmd = text "도움말" then some .help
    else none

/-- A message; the empty one counts as none. -/
structure Message where
  chat : Option ℤ
  text : Text
  deriving DecidableEq

structure Update where
  id : ℕ
  message : Option Message
  edited : Option Message
  deriving DecidableEq

/-- The message that is handled. -/
def Update.msg (u : Update) : Message := (u.message.or u.edited).getD ⟨none, []⟩

structure Bar where
  date : ℤ
  openPrice : ℚ
  high : ℚ
  low : ℚ
  close : ℚ

/-- What `chart_for_symbol` does: a picture with its caption, a `ValueError`, or another
exception. -/
inductive Chart
  | drawn (png : List ℕ) (caption : Text)
  | valueError (e : Text)
  | raised

/-- What the bot calls while it handles an update: the daily candles of a symbol for some days, or
the name of an exception, and the chart of a market, a symbol and a name. -/
structure Services where
  fetchDaily : Text → ℕ → Except Text (List Bar)
  chartForSymbol : List Bar → String → Text → Option Text → Chart

inductive Answer
  | message (text : Text)
  | photo (png : List ℕ) (caption : Text)
  deriving DecidableEq

/-- The index of the names and the allowed chats. -/
structure Config where
  unicode : Unicode
  index : List Row
  allowed : List ℤ

def krFetchDays : ℕ := 1400

def usFetchDays : ℕ := 220

/-- `_HELP` -/
def helpText : Text :=
  text ("📈 사용법: /chart <종목명 또는 티커>  (한글 /차트 도 됨)\n" ++
    "예) /chart 삼성전자 · /chart 005930 · /chart AAPL\n국장=주봉+일목 구름 · 미장=일봉")

variable (cfg : Config)

/-- `handle_chart`, and how its result is sent; none if it raises. -/
def handleChart (s : Services) (query : Text) : Option Answer :=
  match resolve cfg.unicode cfg.index query with
  | none => some <| .message <| text "❓ 종목을 찾지 못했어요: " ++ query ++
      text "\n한글명(삼성전자) 또는 티커(005930, AAPL)로 보내주세요"
  | some hit =>
    match s.fetchDaily hit.symbol (if hit.market = "KR" then krFetchDays else usFetchDays) with
    | .error e => some (.message (text "⚠️ " ++ hit.symbol ++ text " 시세 조회 실패: " ++ e))
    | .ok [] => some <| .message <| text "⚠️ " ++ hit.symbol ++
        text " 시세를 가져오지 못했어요(상장폐지·티커 오류일 수 있어요)"
    | .ok daily =>
      match s.chartForSymbol daily hit.market hit.symbol
        (if hit.name = hit.symbol then none else some hit.name) with
      | .drawn png caption => some (.photo png (caption.take 1024))
      | .valueError e =>
        some (.message (text "⚠️ " ++ hit.symbol ++ text " 차트 생성 실패: " ++ e))
      | .raised => none

/-- `_handle_update`: the chat and what is sent to it. -/
def handleUpdate (s : Services) (u : Update) : Option (ℤ × Answer) :=
  match u.msg.chat with
  | none => none
  | some chat =>
    if chat ∉ cfg.allowed then none
    else match parseCommand cfg.unicode u.msg.text with
      | none => none
      | some .help => some (chat, .message helpText)
      | some (.chart query) => (handleChart cfg s query).map fun answer => (chat, answer)

/-! ## The loop -/

/-- What the bot sends, beside the process that sends it and the number of the update that it is
for. -/
structure Reply where
  process : ℕ
  update : ℕ
  chat : ℤ
  answer : Answer

def Reply.key (r : Reply) : ℕ × ℕ := (r.process, r.update)

/-- The updates at Telegram with the offset of the bot, its backoff, and all it sent. -/
structure World where
  queue : Queue Update
  backoff : ℕ
  sent : List Reply

/-- Telegram gets an update or gives old ones up; the bot polls and gets up to `n` updates; the
answer to its request is lost; the request fails; the process dies in the update after `k` others,
before or after it replied; the process dies between two requests. -/
inductive Event
  | arrive (u : Update)
  | expire (n : ℕ)
  | poll (n : ℕ) (services : Update → Services)
  | lost
  | refused
  | crash (n k : ℕ) (services : Update → Services) (replied : Bool)
  | restart

def replies (process : ℕ) (services : Update → Services) (u : Update) : List Reply :=
  (handleUpdate cfg (services u) u).toList.map fun r => ⟨process, u.id, r.1, r.2⟩

namespace World

def start : World := ⟨.empty, 1, []⟩

variable (w : World)

/-- The wait after a failed poll doubles up to half a minute. -/
def backOff : World := { w with backoff := min (w.backoff * 2) 30 }

def next (w : World) : Event → World
  | .arrive u => { w with queue := w.queue.arrive u }
  | .expire n => { w with queue := w.queue.expire n }
  | .poll n services =>
    let q := w.queue.confirm Update.id
    let updates := q.answer Update.id n
    ⟨q.consume Update.id updates, 1, w.sent ++ updates.flatMap (replies cfg q.restarts services)⟩
  | .lost => { w.backOff with queue := w.queue.confirm Update.id }
  | .refused => w.backOff
  | .crash n k services replied =>
    let q := w.queue.confirm Update.id
    let updates := q.answer Update.id n
    let begun := if replied then k + 1 else k
    ⟨(q.consume Update.id (updates.take k)).restart, 1,
      w.sent ++ (updates.take begun).flatMap (replies cfg q.restarts services)⟩
  | .restart => { w with queue := w.queue.restart, backoff := 1 }

end World

/-- Telegram numbers the updates upwards, which it does unless a week passes without one, and gives
out up to a hundred at once. -/
def system : System World Event where
  Enabled w
    | .arrive u => ∀ v ∈ w.queue.arrived, v.id < u.id
    | .poll n _ | .crash n _ _ _ => n ≤ 100
    | .expire _ | .lost | .refused | .restart => True
  next := World.next cfg

/-! ## Every run -/

/-- What the bot guarantees. -/
structure Served (w : World) : Prop where
  /-- An update is at Telegram, was handled, or was given up by Telegram. -/
  kept : ∀ u ∈ w.queue.arrived, u ∈ w.queue.pending ∨ u ∈ w.queue.log ∨ u ∈ w.queue.expired
  /-- The present process handles the updates in order, none twice. -/
  once : w.queue.process.Pairwise fun u v => u.id < v.id
  /-- A process replies to an update at most once. -/
  few : ∀ process id, (w.sent.map Reply.key).count (process, id) ≤ 1
  /-- A reply answers a command of its own chat, which is allowed. -/
  answers : ∀ r ∈ w.sent, r.chat ∈ cfg.allowed ∧ ∃ u ∈ w.queue.arrived, u.id = r.update ∧
    u.msg.chat = some r.chat ∧ (parseCommand cfg.unicode u.msg.text).isSome
  backoff : 1 ≤ w.backoff ∧ w.backoff ≤ 30

variable {cfg} {w : World} {services : Update → Services} {u : Update} {r : Reply}
  {us rest : List Update} {process : ℕ}

theorem mem_replies (h : r ∈ replies cfg process services u) :
    r.key = (process, u.id) ∧ r.chat ∈ cfg.allowed ∧ u.msg.chat = some r.chat ∧
      (parseCommand cfg.unicode u.msg.text).isSome := by
  obtain ⟨⟨chat, answer⟩, hreply, rfl⟩ := List.mem_map.mp h
  rw [Option.mem_toList, handleUpdate] at hreply
  cases hchat : u.msg.chat with
  | none => simp [hchat] at hreply
  | some c =>
    rw [hchat] at hreply
    dsimp only at hreply
    split_ifs at hreply with hallowed
    cases hcommand : parseCommand cfg.unicode u.msg.text with
    | none => simp [hcommand] at hreply
    | some command =>
      have heq : c = chat := by
        cases command with
        | help =>
          simp only [hcommand, Option.some.injEq, Prod.mk.injEq] at hreply
          exact hreply.1
        | chart query =>
          simp only [hcommand, Option.map_eq_some_iff, Prod.mk.injEq] at hreply
          obtain ⟨-, -, heq, -⟩ := hreply
          exact heq
      subst heq
      exact ⟨rfl, hallowed, rfl, rfl⟩

theorem length_replies_le : (replies cfg process services u).length ≤ 1 := by
  unfold replies
  cases handleUpdate cfg (services u) u <;> simp

variable (cfg process services us) in
/-- Some updates get at most one reply each, of the process at work. -/
theorem count_replies_le (p n : ℕ) :
    ((us.flatMap (replies cfg process services)).map Reply.key).count (p, n) ≤
      if p = process then (us.map Update.id).count n else 0 := by
  induction us with
  | nil => simp
  | cons u us ih =>
    rw [List.flatMap_cons, List.map_append, List.count_append, List.map_cons, List.count_cons]
    have hone : ((replies cfg process services u).map Reply.key).count (p, n) ≤
        if p = process ∧ u.id = n then 1 else 0 := by
      split_ifs with hu
      · exact List.count_le_length.trans (by simpa using length_replies_le)
      · refine (List.count_eq_zero.mpr fun hn => hu ?_).le
        obtain ⟨r, hr, hkey⟩ := List.mem_map.mp hn
        have heq := hkey.symm.trans (mem_replies hr).1
        exact ⟨(Prod.mk.inj heq).1, (Prod.mk.inj heq).2.symm⟩
    by_cases hp : p = process
    · by_cases hn : u.id = n
      · simp only [hp, hn, and_self, if_true, beq_self_eq_true] at hone ih ⊢
        omega
      · simp only [hp, hn, and_false, if_true, if_false, beq_iff_eq] at hone ih ⊢
        omega
    · simp only [hp, false_and, if_false] at hone ih ⊢
      omega

/-- The replies that a process may have sent to an update: one, and while it is at work as many as
it has handled. -/
def allowance (q : Queue Update) (p n : ℕ) : ℕ :=
  if p < q.restarts then 1 else if p = q.restarts then (q.process.map Update.id).count n else 0

theorem allowance_consume (q : Queue Update) (p n : ℕ) :
    allowance (q.consume Update.id us) p n =
      allowance q p n + if p = q.restarts then (us.map Update.id).count n else 0 := by
  unfold allowance
  rw [Queue.process_consume, Queue.restarts_consume, List.map_append, List.count_append]
  split_ifs <;> omega

theorem allowance_le_one {q : Queue Update} (h : q.Tidy Update.id) (p n : ℕ) :
    allowance q p n ≤ 1 := by
  have := h.count_process n
  unfold allowance
  split_ifs <;> omega

/-- A new process takes nothing away from the ones before. -/
theorem allowance_restart {q : Queue Update} (h : q.Tidy Update.id) (p n : ℕ) :
    allowance q p n ≤ if p < q.restarts + 1 then 1 else 0 := by
  have := h.count_process n
  unfold allowance
  split_ifs <;> omega

theorem le_allowance_restart (q : Queue Update) (p n : ℕ) :
    (if p < q.restarts + 1 then 1 else 0) ≤ allowance q.restart p n := by
  change _ ≤ if p < q.restarts + 1 then 1 else _
  split_ifs
  · exact le_rfl
  · exact Nat.zero_le _
  · exact le_rfl

structure Inv (cfg : Config) (w : World) : Prop where
  tidy : w.queue.Tidy Update.id
  few : ∀ p n, (w.sent.map Reply.key).count (p, n) ≤ allowance w.queue p n
  answers : ∀ r ∈ w.sent, r.chat ∈ cfg.allowed ∧ ∃ u ∈ w.queue.arrived, u.id = r.update ∧
    u.msg.chat = some r.chat ∧ (parseCommand cfg.unicode u.msg.text).isSome
  backoff : 1 ≤ w.backoff ∧ w.backoff ≤ 30

namespace Inv

theorem fresh : 1 ≤ 1 ∧ 1 ≤ 30 := by decide

theorem start : Inv cfg World.start where
  tidy := .empty
  few _ _ := Nat.zero_le _
  answers _ hr := absurd hr List.not_mem_nil
  backoff := fresh

variable (h : Inv cfg w)

include h

theorem wait : 1 ≤ min (w.backoff * 2) 30 ∧ min (w.backoff * 2) 30 ≤ 30 := by
  have := h.backoff
  omega

theorem confirm : Inv cfg { w with queue := w.queue.confirm Update.id } where
  tidy := h.tidy.confirm
  few := h.few
  answers := h.answers
  backoff := h.backoff

variable (services) in
theorem reply (hus : us <+: w.queue.pending.filter fun u => w.queue.offset ≤ u.id) :
    (∀ p n, ((w.sent ++ us.flatMap (replies cfg w.queue.restarts services)).map
        Reply.key).count (p, n) ≤ allowance (w.queue.consume Update.id us) p n) ∧
      ∀ r ∈ w.sent ++ us.flatMap (replies cfg w.queue.restarts services), r.chat ∈ cfg.allowed ∧
        ∃ u ∈ w.queue.arrived, u.id = r.update ∧ u.msg.chat = some r.chat ∧
          (parseCommand cfg.unicode u.msg.text).isSome := by
  constructor
  · intro p n
    rw [allowance_consume, List.map_append, List.count_append]
    exact Nat.add_le_add (h.few p n) (count_replies_le cfg services us _ p n)
  · intro r hr
    rcases List.mem_append.mp hr with hr | hr
    · exact h.answers r hr
    · obtain ⟨u, hu, hr⟩ := List.mem_flatMap.mp hr
      obtain ⟨hkey, hallowed, hrest⟩ := mem_replies hr
      have harrived := h.tidy.pending.subset (List.mem_of_mem_filter (hus.subset hu))
      exact ⟨hallowed, u, harrived, (Prod.mk.inj hkey).2.symm, hrest⟩

theorem poll (n : ℕ) : Inv cfg (w.next cfg (.poll n services)) := by
  have h := h.confirm
  have hus := List.take_prefix n
    ((w.queue.confirm Update.id).pending.filter fun u => w.queue.offset ≤ u.id)
  obtain ⟨hfew, hanswers⟩ := h.reply services hus
  obtain ⟨rest, hrest⟩ := hus
  refine ⟨h.tidy.consume hrest.symm, hfew, fun r hr => ?_, fresh⟩
  rw [World.next, Queue.arrived_consume]
  exact hanswers r hr

theorem crash (n k : ℕ) (replied : Bool) : Inv cfg (w.next cfg (.crash n k services replied)) := by
  have h := h.confirm
  have hstart : ∀ m, ((w.queue.confirm Update.id).answer Update.id n).take m <+:
      (w.queue.confirm Update.id).pending.filter fun u => w.queue.offset ≤ u.id :=
    fun m => (List.take_prefix _ _).trans (List.take_prefix _ _)
  obtain ⟨hfew, hanswers⟩ := h.reply services
    (hstart (if replied then k + 1 else k))
  obtain ⟨rest, hrest⟩ := hstart k
  obtain ⟨rest', hrest'⟩ := hstart (if replied then k + 1 else k)
  refine ⟨(h.tidy.consume hrest.symm).restart, fun p m => ?_, fun r hr => ?_, fresh⟩
  · -- the updates begun are none of those that the process has handled
    have hone := allowance_restart (h.tidy.consume hrest'.symm) p m
    rw [Queue.restarts_consume] at hone
    refine ((hfew p m).trans hone).trans ?_
    have hle := le_allowance_restart
      ((w.queue.confirm Update.id).consume Update.id
        (((w.queue.confirm Update.id).answer Update.id n).take k)) p m
    rwa [Queue.restarts_consume] at hle
  · simp only [World.next, Queue.restart, Queue.arrived_consume]
    exact hanswers r hr

theorem next {e : Event} (he : (system cfg).Enabled w e) : Inv cfg (w.next cfg e) := by
  cases e with
  | arrive u =>
    refine ⟨h.tidy.arrive he, h.few, fun r hr => ?_, h.backoff⟩
    obtain ⟨hallowed, v, hv, hrest⟩ := h.answers r hr
    exact ⟨hallowed, v, List.mem_append_left _ hv, hrest⟩
  | expire n => exact ⟨h.tidy.expire n, h.few, h.answers, h.backoff⟩
  | poll n services => exact h.poll n
  | lost => exact ⟨h.tidy.confirm, h.few, h.answers, h.wait⟩
  | refused => exact ⟨h.tidy, h.few, h.answers, h.wait⟩
  | crash n k services replied => exact h.crash n k replied
  | restart =>
    refine ⟨h.tidy.restart, fun p n => ?_, h.answers, fresh⟩
    exact ((h.few p n).trans (allowance_restart h.tidy p n)).trans (le_allowance_restart _ p n)

theorem served : Served cfg w where
  kept := h.tidy.kept
  once := h.tidy.process
  few p n := (h.few p n).trans (allowance_le_one h.tidy p n)
  answers := h.answers
  backoff := h.backoff

end Inv

/-- In every run, with any answers, failures and deaths of the process, no update is lost and none
is answered twice by one process, and only allowed chats get replies. -/
theorem updates_served (cfg : Config) {w : World} (h : (system cfg).Reaches World.start w) :
    Served cfg w :=
  (h.invariant Inv.start fun _ _ hi he => hi.next he).served

section Demo

instance (cfg : Config) (w : World) : ∀ e, Decidable ((system cfg).Enabled w e)
  | .arrive u => inferInstanceAs (Decidable (∀ v ∈ w.queue.arrived, v.id < u.id))
  | .poll n _ | .crash n _ _ _ => inferInstanceAs (Decidable (n ≤ 100))
  | .expire _ | .lost | .refused | .restart => isTrue trivial

def demoConfig : Config := ⟨ascii, [], [7, 8]⟩

def demoServices : Update → Services :=
  fun _ => ⟨fun _ _ => .error (text "HTTPStatusError"), fun _ _ _ _ => .raised⟩

/-- The bot handles three updates, one of a foreign chat. A second process dies after its reply to
the second one, and a third one handles both anew before it confirms them. -/
def demoEvents : List Event :=
  [.arrive ⟨5, some ⟨some 7, text "/chart AAPL"⟩, none⟩,
    .arrive ⟨6, none, some ⟨some 8, text "/help"⟩⟩, .arrive ⟨7, some ⟨some 9, text "/help"⟩, none⟩,
    .refused, .poll 100 demoServices, .restart, .crash 100 1 demoServices true,
    .poll 2 demoServices, .lost]

theorem updates_served_demo : let w := (system demoConfig).run World.start demoEvents
    w.queue.log.map Update.id = [5, 6, 7, 5, 5, 6] ∧
      w.sent.map Reply.key = [(0, 5), (0, 6), (1, 5), (1, 6), (2, 5), (2, 6)] ∧
      w.queue.pending.map Update.id = [7] ∧ Served demoConfig w :=
  ⟨by decide +kernel, by decide +kernel, by decide +kernel,
    updates_served demoConfig (System.Reaches.start.run (by decide +kernel))⟩

end Demo

end QuantTrader.Telegram
