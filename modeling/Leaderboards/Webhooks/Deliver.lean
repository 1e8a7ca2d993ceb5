import Leaderboards.Github
import Leaderboards.Library.Trace
import Leaderboards.Webhooks

/-!
# `outbound_webhooks.rs`: the retries of a delivery

A delivery is a task that posts the payload of an event until the endpoint accepts it, refuses it,
or three attempts have failed. The tasks run beside each other and beside the endpoints, which
answer as they like: an answer can get lost although the post was received, and the client follows
up to ten redirects, so an endpoint can have the post sent to another one (`Follows`). HMAC-SHA256
and the JSON serializer come from outside.

**`tried_of_answers`**: what the loop has done by any moment, whatever it has been answered.
-/

namespace Leaderboards.Outbound

open Interaction
open Github (Hmac hexByte hexDecode hexValue verifySignature)

/-! ### Signatures -/

/-- `hex::encode`. -/
def hexEncode (bytes : List UInt8) : List Char := bytes.flatMap hexByte

/-- `compute_signature`. A key can have any length, so the MAC is always there. -/
def computeSignature (hmac : Hmac) (secret : String) (body : List UInt8) : Option String :=
  some (String.ofList (hexEncode (hmac secret.toUTF8.toList body)))

/-- A request of the HTTP client, with the headers it is given. -/
structure HttpPost where
  url : String
  headers : List (String × String)
  body : List UInt8
deriving DecidableEq

/-- The label under which `webhook_deliveries_total` counts a delivery. -/
inductive DeliveryStatus
  | success
  | clientError
  | retryExhausted
deriving DecidableEq

/-- What `deliver` awaits or does. -/
inductive DeliverCall
  | send (post : HttpPost)
  | sleep (secs : ℕ)
  | count (status : DeliveryStatus)

/-- The calls with their results. A post is answered with a status, or fails with the text of an
error. -/
def DeliverCalls : Signature where
  Cmd := DeliverCall
  Res
    | .send _ => Except String ℕ
    | .sleep _ => Unit
    | .count _ => Unit

/-- A call of a delivery. -/
abbrev deliverCall (c : DeliverCall) : Prog DeliverCalls Error (DeliverCalls.Res c) :=
  Prog.perform (S := DeliverCalls) c

/-! ### Attempts -/

/-- The request of an attempt. -/
def request (hmac : Hmac) (url : String) (body : List UInt8) (secret : Option String) : HttpPost :=
  let post : HttpPost := ⟨url, [("Content-Type", "application/json")], body⟩
  match secret.bind fun secret => computeSignature hmac secret body with
  | some sig =>
    { post with headers := post.headers ++ [("X-Webhook-Signature-256", "sha256=" ++ sig)] }
  | none => post

/-- `StatusCode::is_success`. -/
def isSuccess (status : ℕ) : Bool := 200 ≤ status ∧ status < 300

/-- `StatusCode::is_client_error`. -/
def isClientError (status : ℕ) : Bool := 400 ≤ status ∧ status < 500

/-- The answers to an attempt after which there is no other, and what is counted then. -/
def verdict : Except String ℕ → Option DeliveryStatus
  | .ok status =>
    if isSuccess status then some .success
    else if isClientError status then some .clientError
    else none
  | .error _ => none

/-- The sleep after an attempt. -/
def pause (delaySecs : ℕ) : Prog DeliverCalls Error Unit :=
  if 0 < delaySecs then deliverCall (.sleep delaySecs) else .ret ()

/-- What follows an attempt: it returns, or goes on with `next`. -/
def settle (answer : Except String ℕ) (next : Prog DeliverCalls Error Unit) :
    Prog DeliverCalls Error Unit :=
  match verdict answer with
  | some status => deliverCall (.count status)
  | none => next

/-- The loop of `deliver`, with what follows it. -/
def attempts (post : HttpPost) : List ℕ → Prog DeliverCalls Error Unit
  | [] => deliverCall (.count .retryExhausted)
  | delaySecs :: delays =>
    deliverCall (.send post) >>= fun answer =>
      settle answer (pause delaySecs >>= fun _ => attempts post delays)

/-- The `delays` of `deliver`. -/
def delays : List ℕ := [1, 5, 0]

/-- `deliver`. -/
def deliver (hmac : Hmac) (url : String) (body : List UInt8) (secret : Option String) :
    Prog DeliverCalls Error Unit := attempts (request hmac url body secret) delays

/-! ### What an attempt has done -/

/-- The posts among some calls, with their answers. -/
def sentIn (calls : List (Machine.Answered DeliverCalls)) : List (HttpPost × Except String ℕ) :=
  calls.filterMap fun
    | ⟨.send post, answer⟩ => some (post, answer)
    | _ => none

/-- The sleeps among some calls. -/
def sleptIn (calls : List (Machine.Answered DeliverCalls)) : List ℕ :=
  calls.filterMap fun
    | ⟨.sleep secs, _⟩ => some secs
    | _ => none

/-- What is counted is what happened: the last post has been answered accordingly, or all attempts
have been made and none has led to anything. -/
def Truthful (delays : List ℕ) (sent : List (HttpPost × Except String ℕ))
    (status : DeliveryStatus) : Prop :=
  (∃ x, sent.getLast? = some x ∧ verdict x.2 = some status) ∨
    status = .retryExhausted ∧ sent.length = delays.length ∧ ∀ x ∈ sent, verdict x.2 = none

section

variable {post : HttpPost} {delaySecs : ℕ} {delays : List ℕ} {answer : Except String ℕ}
  {calls : List (Machine.Answered DeliverCalls)} {rest : Prog DeliverCalls Error Unit}

@[simp] theorem sleptIn_send : sleptIn (⟨.send post, answer⟩ :: calls) = sleptIn calls := rfl

@[simp] theorem sleptIn_sleep {r : Unit} :
    sleptIn (⟨.sleep delaySecs, r⟩ :: calls) = delaySecs :: sleptIn calls := rfl

theorem Truthful.cons {sent : List (HttpPost × Except String ℕ)} {status : DeliveryStatus}
    (h : Truthful delays sent status) (hverdict : verdict answer = none) :
    Truthful (delaySecs :: delays) ((post, answer) :: sent) status := by
  rcases h with ⟨x, hlast, hx⟩ | ⟨hstatus, hlength, hnone⟩
  · refine .inl ⟨x, ?_, hx⟩
    rw [List.getLast?_cons, hlast]
    rfl
  · refine .inr ⟨hstatus, by simp [hlength], fun x hx => ?_⟩
    rcases List.mem_cons.mp hx with rfl | hx
    · exact hverdict
    · exact hnone x hx

end

/-! ### The endpoints -/

/-- A post as an endpoint receives it, after redirects from these URLs. -/
structure Receipt where
  post : HttpPost
  via : List String
deriving DecidableEq

/-- What becomes of a post of the client, which follows some more redirects: what is received, in
order, and the answer. -/
inductive Follows : ℕ → List String → HttpPost → List Receipt → Except String ℕ → Prop
  /-- The endpoint receives the post and answers, or its answer is lost, or it redirects the client
  to where it gets the answer without posting anything (301, 302, 303), or once too often. -/
  | received {n : ℕ} {via : List String} {post : HttpPost} (answer : Except String ℕ) :
      Follows n via post [⟨post, via⟩] answer
  | lost {n : ℕ} {via : List String} {post : HttpPost} (e : String) :
      Follows n via post [] (.error e)
  /-- The endpoint has the post sent to another URL (307, 308). -/
  | redirected {n : ℕ} {via : List String} {post : HttpPost} {rs : List Receipt}
      {answer : Except String ℕ} (url : String)
      (h : Follows n (via ++ [post.url]) { post with url } rs answer) :
      Follows (n + 1) via post (⟨post, via⟩ :: rs) answer

/-- The receipt is of this post, which redirects have led to where it was received. -/
structure Receipt.Of (post : HttpPost) (limit : ℕ) (r : Receipt) : Prop where
  headers : r.post.headers = post.headers
  body : r.post.body = post.body
  origin : (r.via ++ [r.post.url]).head? = some post.url
  bounded : r.via.length ≤ limit

section

variable {n : ℕ} {via : List String} {post : HttpPost} {rs : List Receipt}
  {answer : Except String ℕ}

theorem Follows.length_le (h : Follows n via post rs answer) : rs.length ≤ n + 1 := by
  induction h with
  | received answer => exact Nat.succ_le_succ (Nat.zero_le _)
  | lost e => exact Nat.zero_le _
  | redirected url h ih => exact Nat.succ_le_succ ih

/-- What is received later has more redirects behind it. -/
theorem Follows.receipt (h : Follows n via post rs answer) : ∀ r ∈ rs,
    r.post.headers = post.headers ∧ r.post.body = post.body ∧
      (via ++ [post.url]) <+: (r.via ++ [r.post.url]) ∧ r.via.length ≤ via.length + n := by
  induction h with
  | received answer =>
    intro r hr
    obtain rfl := List.mem_singleton.mp hr
    exact ⟨rfl, rfl, List.prefix_refl _, Nat.le_add_right _ _⟩
  | lost e => exact fun r hr => absurd hr List.not_mem_nil
  | @redirected n via post rs answer url h ih =>
    intro r hr
    rcases List.mem_cons.mp hr with rfl | hr
    · exact ⟨rfl, rfl, List.prefix_refl _, Nat.le_add_right _ _⟩
    · obtain ⟨hheaders, hbody, hprefix, hlength⟩ := ih r hr
      refine ⟨hheaders, hbody, (List.prefix_append _ _).trans hprefix, ?_⟩
      rw [List.length_append, List.length_singleton] at hlength
      omega

/-- **All that is received is the post**, at its URL or where it was redirected to. -/
theorem Follows.of (h : Follows n [] post rs answer) : ∀ r ∈ rs, r.Of post n := by
  intro r hr
  obtain ⟨hheaders, hbody, ⟨rest, hrest⟩, hlength⟩ := h.receipt r hr
  refine ⟨hheaders, hbody, ?_, by simpa using hlength⟩
  rw [← hrest]
  rfl

/-- The posts that were received without a redirect. -/
def directly (rs : List Receipt) : List HttpPost :=
  (rs.filter fun r => r.via = []).map Receipt.post

theorem directly_append (rs rs' : List Receipt) :
    directly (rs ++ rs') = directly rs ++ directly rs' := by
  simp [directly]

/-- **The endpoint of the URL receives the post at most once**, and does so when it is answered. -/
theorem Follows.directly (h : Follows n [] post rs answer) :
    directly rs = [post] ∨ directly rs = [] ∧ ∃ e, answer = .error e := by
  cases h with
  | received answer => exact .inl rfl
  | lost e => exact .inr ⟨rfl, e, rfl⟩
  | @redirected n _ _ rs _ url h =>
    refine .inl ?_
    have hlater : ∀ r ∈ rs, r.via ≠ [] := by
      intro r hr hnil
      obtain ⟨-, -, hprefix, -⟩ := h.receipt r hr
      have hle := hprefix.length_le
      simp [hnil] at hle
    have hnone : rs.filter (fun r => decide (r.via = [])) = [] :=
      List.filter_eq_nil_iff.mpr fun r hr => by simpa using hlater r hr
    simp [Outbound.directly, hnone]

end

/-- The default policy of the client: how many redirects it follows. -/
def maxRedirects : ℕ := 10

/-- What a call does to the posts that have been received, with the tasks that have sent them. -/
inductive DeliverCall.Exec (t : Tid) :
    (c : DeliverCall) → List (Tid × Receipt) → DeliverCalls.Res c → List (Tid × Receipt) → Prop
  | send {post : HttpPost} {received : List (Tid × Receipt)} {rs : List Receipt}
      {answer : Except String ℕ} (h : Follows maxRedirects [] post rs answer) :
      Exec t (.send post) received answer (received ++ rs.map fun r => (t, r))
  | sleep {secs : ℕ} {received : List (Tid × Receipt)} : Exec t (.sleep secs) received () received
  | count {status : DeliveryStatus} {received : List (Tid × Receipt)} :
      Exec t (.count status) received () received

end Leaderboards.Outbound
