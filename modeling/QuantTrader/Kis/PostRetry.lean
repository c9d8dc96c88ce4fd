import Mathlib.Data.Rat.Floor

/-! # The retries of an order POST

`post_order` with its bodies, its hash and its loop as they are written: a POST is
sent again only after an answer that carries the throttle code, under any status,
and only while tries are left. So at most the last POST of a call is accepted, the
response of that one is what is returned, and the loop always ends in a return or a
raise.
-/

namespace QuantTrader.Kis

/-- `_THROTTLE_CD`. -/
def throttleCd : String := "EGW00201"

namespace PostRetry

/-- A value of a JSON object, with the text and the truth value that Python gives it; of an object
that is not empty only its `ODNO` is looked at. -/
inductive Value
  | null
  | str (s : String)
  | object (text : String) (odno : Option String)
  | other (type text : String) (truthy : Bool)
  deriving DecidableEq

/-- `str(v)`. -/
def Value.text : Value → String
  | .null => "None"
  | .str s => s
  | .object text _ => text
  | .other _ text _ => text

def Value.truthy : Value → Bool
  | .null => false
  | .str s => s ≠ ""
  | .object _ _ => true
  | .other _ _ truthy => truthy

/-- `(v or {}).get("ODNO")`. -/
def Value.odno (v : Value) : Except String (Option String) :=
  let missing (type : String) := "AttributeError: '" ++ type ++ "' object has no attribute 'get'"
  if v.truthy then
    match v with
    | .null => .ok none
    | .str _ => .error (missing "str")
    | .object _ odno => .ok odno
    | .other type _ _ => .error (missing type)
  else .ok none

/-- A JSON object by `get`; a missing key gives `null`. -/
abbrev Body := String → Value

/-- A response; `json` is nothing when the body is no JSON object. -/
structure Response where
  statusCode : ℕ
  text : String
  json : Option Body

/-- What a POST comes back with. -/
inductive Answer
  | raised (transport : Bool) (e : String)
  | response (r : Response)

/-- `_RETRY_WAITS`, in seconds. -/
def retryWaits : List ℚ := [1, 2]

def safeJson (r : Response) : Body := r.json.getD fun _ => .null

/-- `s[:n]`. -/
def clipped (s : String) (n : ℕ) : String := String.ofList (s.toList.take n)

/-- `b.get('msg1') or r.text[:n]`. -/
def why (r : Response) (n : ℕ) : String :=
  if (safeJson r "msg1").truthy then (safeJson r "msg1").text else clipped r.text n

inductive Raise
  | raised (e : String)
  | runtime (message : String)
  | status (statusCode : ℕ)
  | noHash
  | assertion (message : String)
  deriving DecidableEq

/-- `f"{type(e).__name__}: {e}"`, of an error status in short. -/
def Raise.text : Raise → String
  | .raised e => e
  | .runtime message => "RuntimeError: " ++ message
  | .status statusCode => "HTTPStatusError: " ++ toString statusCode
  | .noHash => "KeyError: 'HASH'"
  | .assertion message => "AssertionError: " ++ message

/-- The loop of `_hashkey` over the tries left, with the last failure. -/
def hashLoop (answers : ℕ → Answer) : List ℕ → String → Except Raise String
  | [], last => .error (.runtime ("KIS hashkey 실패(재시도 소진): " ++ last))
  | i :: is, _ =>
    match answers i with
    | .raised transport e => if transport then hashLoop answers is e else .error (.raised e)
    | .response r =>
      if r.statusCode < 500 then
        if 200 ≤ r.statusCode ∧ r.statusCode < 300 then
          match safeJson r "HASH" with
          | .str h => .ok h
          | _ => .error .noHash
        else .error (.status r.statusCode)
      else hashLoop answers is ("HTTP " ++ toString r.statusCode ++ " " ++
        (safeJson r "msg_cd").text ++ " " ++ why r 120)

/-- `range(len(_RETRY_WAITS) + 1)`. -/
def tries : List ℕ := List.range (retryWaits.length + 1)

def hashkey (answers : ℕ → Answer) : Except Raise String := hashLoop answers tries ""

def throttled (r : Response) : Bool := safeJson r "msg_cd" = .str throttleCd

/-- What ends the loop when a response is not followed by another try. -/
def judge (trId : String) (r : Response) : Except Raise Body :=
  let exhausted := if throttled r then " — 한도거부 재시도 소진" else ""
  if 400 ≤ r.statusCode then
    .error (.runtime ("KIS 주문 HTTP " ++ toString r.statusCode ++ "(" ++ trId ++ "): " ++
      (safeJson r "msg_cd").text ++ " " ++ why r 200 ++ exhausted))
  else if (safeJson r "rt_cd").text ≠ "0" then
    .error (.runtime ("KIS 주문 실패(" ++ trId ++ "): " ++ (safeJson r "msg_cd").text ++ " " ++
      (safeJson r "msg1").text ++ exhausted))
  else .ok (safeJson r)

/-- The loop of `post_order` over the tries left: the result, and the POSTs that were sent. -/
def postLoop (trId : String) (answers : ℕ → Answer) : List ℕ → Except Raise Body × List ℕ
  | [] => (.error (.assertion "unreachable — post_order 루프는 return/raise로만 종료"), [])
  | i :: is =>
    match answers i with
    | .raised _ e => (.error (.raised e), [i])
    | .response r =>
      if throttled r ∧ i < retryWaits.length then
        ((postLoop trId answers is).1, i :: (postLoop trId answers is).2)
      else (judge trId r, [i])

/-- `post_order`: the hash is computed once, and without it nothing is sent. -/
def postOrder (trId : String) (hashAnswers answers : ℕ → Answer) : Except Raise Body × List ℕ :=
  match hashkey hashAnswers with
  | .error e => (.error e, [])
  | .ok _ => postLoop trId answers tries

/-- A rate refusal was not accepted. -/
def Honest (answers : ℕ → Answer) (accepted : ℕ → Bool) : Prop :=
  ∀ i r, answers i = .response r → throttled r = true → accepted i = false

section Loop

variable {trId : String} {answers hashAnswers : ℕ → Answer} {accepted : ℕ → Bool}

theorem judge_ok_iff {r : Response} {b : Body} : judge trId r = .ok b ↔
    r.statusCode < 400 ∧ (safeJson r "rt_cd").text = "0" ∧ safeJson r = b := by
  simp only [judge]
  split_ifs with h1 h2
  · simp [h1]
  · simp [h2]
  · simp [not_le.mp h1, not_not.mp h2]

/-- How the loop ends: rate refusals, then one POST that is judged or raises itself. -/
inductive Ends (trId : String) (answers : ℕ → Answer) : Except Raise Body × List ℕ → Prop
  | raised (pre : List ℕ) (i : ℕ) (transport : Bool) (e : String) :
      (∀ j ∈ pre, ∃ r, answers j = .response r ∧ throttled r = true) →
      answers i = .raised transport e → Ends trId answers (.error (.raised e), pre ++ [i])
  | judged (pre : List ℕ) (i : ℕ) (r : Response) :
      (∀ j ∈ pre, ∃ r, answers j = .response r ∧ throttled r = true) →
      answers i = .response r → Ends trId answers (judge trId r, pre ++ [i])

theorem Ends.cons {i : ℕ} {r : Response} {res : Except Raise Body × List ℕ}
    (h : Ends trId answers res) (hi : answers i = .response r) (ht : throttled r = true) :
    Ends trId answers (res.1, i :: res.2) := by
  cases h with
  | raised pre j transport e hpre hj =>
    exact .raised (i :: pre) j transport e (List.forall_mem_cons.mpr ⟨⟨r, hi, ht⟩, hpre⟩) hj
  | judged pre j r' hpre hj =>
    exact .judged (i :: pre) j r' (List.forall_mem_cons.mpr ⟨⟨r, hi, ht⟩, hpre⟩) hj

/-- The last try is never followed by another one, so the loop does not run out. -/
theorem postLoop_ends {is : List ℕ} (h : ∃ j ∈ is, retryWaits.length ≤ j) :
    Ends trId answers (postLoop trId answers is) := by
  induction is with
  | nil => simp at h
  | cons i is ih =>
    rw [postLoop]
    cases hi : answers i with
    | raised transport e => exact .raised [] i transport e (List.forall_mem_nil _) hi
    | response r =>
      dsimp only
      split_ifs with hretry
      · obtain ⟨j, hj, hlen⟩ := h
        rcases List.mem_cons.mp hj with rfl | hj
        · exact absurd hretry.2 hlen.not_gt
        · exact (ih ⟨j, hj, hlen⟩).cons hi hretry.1
      · exact .judged [] i r (List.forall_mem_nil _) hi

theorem hashLoop_ne_assertion {m : String} (is : List ℕ) (last : String) :
    hashLoop hashAnswers is last ≠ .error (.assertion m) := by
  induction is generalizing last with
  | nil => simp [hashLoop]
  | cons i is ih =>
    rw [hashLoop]
    split
    · split_ifs
      · exact ih _
      · simp
    · split_ifs
      · split <;> simp
      · simp
      · exact ih _

/-- What one call of `post_order` guarantees. -/
structure Safe (answers : ℕ → Answer) (accepted : ℕ → Bool) (res : Except Raise Body)
    (sent : List ℕ) : Prop where
  accepted_le : sent.countP accepted ≤ 1
  ok_iff : ∀ b, res = .ok b ↔ ∃ i r, sent.getLast? = some i ∧ answers i = .response r ∧
    r.statusCode < 400 ∧ (safeJson r "rt_cd").text = "0" ∧ safeJson r = b
  ne_assertion : ∀ m, res ≠ .error (.assertion m)

theorem countP_snoc_le {pre : List ℕ} {i : ℕ} (h : Honest answers accepted)
    (hpre : ∀ j ∈ pre, ∃ r, answers j = .response r ∧ throttled r = true) :
    (pre ++ [i]).countP accepted ≤ 1 := by
  have h0 : pre.countP accepted = 0 := by
    rw [List.countP_eq_zero]
    intro j hj
    obtain ⟨r, hr, ht⟩ := hpre j hj
    simp [h j r hr ht]
  rw [List.countP_append, h0, zero_add]
  exact List.countP_le_length

theorem Ends.safe {res : Except Raise Body × List ℕ} (h : Honest answers accepted)
    (he : Ends trId answers res) : Safe answers accepted res.1 res.2 := by
  cases he with
  | raised pre i transport e hpre hi =>
    refine ⟨countP_snoc_le h hpre, fun b => iff_of_false nofun ?_, nofun⟩
    rintro ⟨j, r, hj, hr, -⟩
    obtain rfl : i = j := by simpa using hj
    rw [hi] at hr
    cases hr
  | judged pre i r hpre hi =>
    refine ⟨countP_snoc_le h hpre, fun b => ?_, fun m => ?_⟩
    · rw [judge_ok_iff]
      constructor
      · exact fun hb => ⟨i, r, by simp, hi, hb⟩
      · rintro ⟨j, r', hj, hr, hb⟩
        obtain rfl : i = j := by simpa using hj
        obtain rfl : r = r' := by simpa [hi] using hr
        exact hb
    · dsimp only [judge]
      split_ifs <;> simp

theorem postOrder_cases (trId : String) (hashAnswers answers : ℕ → Answer) :
    (∃ e, (∀ m, e ≠ .assertion m) ∧ postOrder trId hashAnswers answers = (.error e, [])) ∨
      Ends trId answers (postOrder trId hashAnswers answers) := by
  rw [postOrder]
  cases hk : hashkey hashAnswers with
  | error e =>
    refine Or.inl ⟨e, ?_, rfl⟩
    rintro m rfl
    exact hashLoop_ne_assertion tries "" hk
  | ok _ => exact Or.inr (postLoop_ends ⟨2, by decide, by decide⟩)

/-- Whatever the gateway answers, at most one POST of a call is accepted, the call returns exactly
the acknowledgement of its last POST, and never runs out of its loop. -/
theorem postOrder_safe (h : Honest answers accepted) :
    Safe answers accepted (postOrder trId hashAnswers answers).1
      (postOrder trId hashAnswers answers).2 := by
  rcases postOrder_cases trId hashAnswers answers with ⟨e, he, hpost⟩ | hends
  · rw [hpost]
    refine ⟨by simp, fun b => iff_of_false nofun ?_, ?_⟩
    · rintro ⟨i, r, hi, -⟩
      cases hi
    · rintro m ⟨⟩
      exact he m rfl
  · exact hends.safe h

end Loop

/-! ## One order or cancel -/

/-- The POSTs of an order or a cancel: the TR id, the answers of the gateway, and which POSTs are
carried out. One that is refused for the rate is not, one that is acknowledged is. -/
structure Posts where
  trId : String
  hashAnswers : ℕ → Answer
  answers : ℕ → Answer
  accepted : ℕ → Bool
  refused : Honest answers accepted
  acknowledged : ∀ i r, answers i = .response r → (judge trId r).isOk = true → accepted i = true

namespace Posts

variable (p : Posts)

/-- The call of `post_order`. -/
def post : Except Raise Body × List ℕ := postOrder p.trId p.hashAnswers p.answers

/-- How often the request is carried out. -/
def taken : ℕ := p.post.2.countP p.accepted

/-- The number of the order, `att["odno"]`. -/
def odno : Except String (Option String) :=
  match p.post.1 with
  | .error e => .error e.text
  | .ok body => (body "output").odno

theorem taken_le_one : p.taken ≤ 1 := by
  rcases postOrder_cases p.trId p.hashAnswers p.answers with ⟨e, -, hpost⟩ | hends
  · simp [taken, post, hpost]
  · exact (hends.safe p.refused).accepted_le

theorem taken_of_ok {body : Body} (h : p.post.1 = .ok body) : p.taken = 1 := by
  rcases postOrder_cases p.trId p.hashAnswers p.answers with ⟨e, -, hpost⟩ | hends
  · rw [post, hpost] at h
    cases h
  · have hsafe := hends.safe p.refused
    obtain ⟨i, r, hlast, hr, hok⟩ := (hsafe.ok_iff body).mp h
    have haccepted : p.accepted i = true := by
      refine p.acknowledged i r hr ?_
      rw [judge_ok_iff.mpr hok]
      rfl
    have hpos : 0 < p.taken := List.countP_pos_iff.mpr ⟨i, List.mem_of_getLast? hlast, haccepted⟩
    exact le_antisymm p.taken_le_one hpos

theorem taken_of_odno {n : Option String} (h : p.odno = .ok n) : p.taken = 1 := by
  unfold odno at h
  cases hpost : p.post.1 with
  | error e =>
    rw [hpost] at h
    cases h
  | ok body => exact p.taken_of_ok hpost

end Posts

section Demo

/-- A refusal for the rate under HTTP 500, then an acknowledgement. -/
def demoAnswers : ℕ → Answer
  | 0 => .response ⟨500, "", some fun k =>
      if k = "msg_cd" then .str throttleCd else if k = "rt_cd" then .str "1" else .null⟩
  | _ => .response ⟨200, "", some fun k => if k = "rt_cd" then .str "0" else .null⟩

def demoHash : ℕ → Answer := fun _ =>
  .response ⟨200, "", some fun k => if k = "HASH" then .str "H" else .null⟩

theorem honest_demo : Honest demoAnswers (0 < ·) := by
  rintro i r hr ht
  cases i with
  | zero => rfl
  | succ i =>
    obtain rfl := Answer.response.inj hr
    exact absurd ht (by decide)

theorem postOrder_safe_demo :
    Safe demoAnswers (0 < ·) (postOrder "VTTC0802U" demoHash demoAnswers).1
      (postOrder "VTTC0802U" demoHash demoAnswers).2 :=
  postOrder_safe honest_demo

def acknowledgedPosts (odno : String) : Posts where
  trId := "VTTT1002U"
  hashAnswers := demoHash
  answers := fun _ => .response ⟨200, "", some fun k =>
    if k = "rt_cd" then .str "0" else if k = "output" then .object "" (some odno) else .null⟩
  accepted := fun _ => true
  refused := by
    rintro i r hr ht
    obtain rfl := Answer.response.inj hr
    simp [throttled, safeJson] at ht
  acknowledged := fun _ _ _ _ => rfl

/-- An order whose POST times out, and is carried out or not. -/
def timedOutPosts (accepted : Bool) : Posts where
  trId := "VTTT1002U"
  hashAnswers := demoHash
  answers := fun _ => .raised true "ReadTimeout"
  accepted := fun _ => accepted
  refused := nofun
  acknowledged := nofun

def retriedPosts : Posts where
  trId := "VTTT1002U"
  hashAnswers := demoHash
  answers := demoAnswers
  accepted := (0 < ·)
  refused := honest_demo
  acknowledged := by
    rintro i r hr hok
    cases i with
    | zero =>
      obtain rfl := Answer.response.inj hr
      revert hok
      decide
    | succ i => rfl

end Demo

end PostRetry

end QuantTrader.Kis
