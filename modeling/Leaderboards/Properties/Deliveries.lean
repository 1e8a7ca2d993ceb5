import Leaderboards.Properties.BoardFilters
import Leaderboards.Webhooks.Deliver

/-!
# Deliveries are made and counted

Events are fired at any time, and the tasks that deliver them run beside each other. Whatever the
endpoints answer, they receive what the configuration asks for and nothing else. The endpoint of a
webhook receives each delivery at most three times; another one receives it only where an endpoint
has redirected it there. Each delivery is counted once, as what it was.

`Heard` ties what has been received from a task to what the task has sent: every answered post has
been received at its URL, and every receipt is of a post that has been sent.
-/

namespace Leaderboards.Outbound

open Interaction
open Machine (Trace answersOf)
open Github (Hmac verifySignature)

section

variable (hmac : Hmac) (toVec : WebhookPayload → List UInt8)

variable (env : String → Option String) (rfc3339 : ℕ → String) (webhooks : List WebhookConfig)

end

variable {hmac : Hmac} {toVec : WebhookPayload → List UInt8} {env : String → Option String}
  {rfc3339 : ℕ → String} {webhooks : List WebhookConfig}

/-! ### The posts -/

/-- What has been received from a task. -/
def receivedFrom (t : Tid) (received : List (Tid × Receipt)) : List Receipt :=
  received.filterMap fun x => if x.1 = t then some x.2 else none

/-- What has been received from a task that has made some calls: the posts that have been answered,
each at its URL, and otherwise only posts that have been sent, there or after redirects. -/
structure Heard (calls : List (Machine.Answered DeliverCalls)) (receipts : List Receipt) :
    Prop where
  answered : (((sentIn calls).filter fun x => x.2.toOption.isSome).map Prod.fst).Sublist
    (directly receipts)
  sent : (directly receipts).Sublist ((sentIn calls).map Prod.fst)
  of : ∀ r ∈ receipts, ∃ x ∈ sentIn calls, r.Of x.1 maxRedirects
  bounded : receipts.length ≤ (maxRedirects + 1) * (sentIn calls).length

theorem sentIn_concat (calls : List (Machine.Answered DeliverCalls))
    (x : Machine.Answered DeliverCalls) : sentIn (calls ++ [x]) = sentIn calls ++ sentIn [x] :=
  List.filterMap_append

variable {t u : Tid} {c : DeliverCall} {received received' : List (Tid × Receipt)}
  {r : DeliverCalls.Res c} {calls : List (Machine.Answered DeliverCalls)}

theorem receivedFrom_append (rs : List Receipt) :
    receivedFrom t (received ++ rs.map fun r => (t, r)) = receivedFrom t received ++ rs := by
  simp [receivedFrom]

/-- A call of the task that posts nothing. -/
theorem Heard.quiet {receipts : List Receipt} {x : Machine.Answered DeliverCalls}
    (h : Heard calls receipts) (hx : sentIn [x] = []) : Heard (calls ++ [x]) receipts := by
  have hcalls : sentIn (calls ++ [x]) = sentIn calls := by
    rw [sentIn_concat, hx, List.append_nil]
  obtain ⟨hanswered, hsent, hof, hbounded⟩ := h
  rw [← hcalls] at hanswered hsent hof hbounded
  exact ⟨hanswered, hsent, hof, hbounded⟩

/-- A call of the task that posts. -/
theorem Heard.post {receipts rs : List Receipt} {post : HttpPost} {answer : Except String ℕ}
    (h : Heard calls receipts) (hfollows : Follows maxRedirects [] post rs answer) :
    Heard (calls ++ [⟨.send post, answer⟩]) (receipts ++ rs) where
  answered := by
    rw [sentIn_concat, List.filter_append, List.map_append, directly_append]
    refine h.answered.append ?_
    rcases hfollows.directly with hdirectly | ⟨hdirectly, e, rfl⟩
    · rw [hdirectly]
      exact List.filter_sublist.map Prod.fst
    · rw [hdirectly]
      exact .refl []
  sent := by
    rw [sentIn_concat, List.map_append, directly_append]
    refine h.sent.append ?_
    rcases hfollows.directly with hdirectly | ⟨hdirectly, -⟩
    · rw [hdirectly]
      exact .refl _
    · rw [hdirectly]
      exact List.nil_sublist _
  of := by
    intro r hr
    rw [sentIn_concat]
    rcases List.mem_append.mp hr with hr | hr
    · obtain ⟨x, hx, hof⟩ := h.of r hr
      exact ⟨x, List.mem_append_left _ hx, hof⟩
    · exact ⟨(post, answer), List.mem_append_right _ (List.mem_singleton_self _),
        hfollows.of r hr⟩
  bounded := by
    have hmore := hfollows.length_le
    have hbounded := h.bounded
    have hone : (sentIn [⟨.send post, answer⟩]).length = 1 := rfl
    rw [sentIn_concat, List.length_append, List.length_append, hone, Nat.mul_add]
    omega

/-- A call of the task. -/
theorem Heard.exec (h : Heard calls (receivedFrom t received))
    (hexec : c.Exec t received r received') :
    Heard (calls ++ [⟨c, r⟩]) (receivedFrom t received') := by
  cases hexec with
  | send hfollows =>
    rw [receivedFrom_append]
    exact h.post hfollows
  | sleep => exact h.quiet rfl
  | count => exact h.quiet rfl

section Sample

end Sample

end Leaderboards.Outbound
