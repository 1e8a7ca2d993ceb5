import Leaderboards.Transactions.Looking

/-!
# Every message keeps the contract

What a message executes is a request of `Routes.lean`, or it only looks, or it is one of the
handlers with statements on `collection_boards` (`Message.safe`). So the invariant of the servers
holds in every state that messages of any kind lead to, and `collection_boards` follows the other
tables.
-/

namespace Leaderboards

open Interaction

variable {Key : Type} {app : App Key} {faulty : Prop} {t : Tid} {α β : Type} {sh sh' : Api.Shared}

/-- The contract of the handlers, among all handlers of the API. -/
abbrev Api.contract (faulty : Prop) : Contract (api faulty) :=
  ((Leaderboards.contract faulty {}).extend (lookups faulty)).extend (memberships faulty)

/-- Every outcome leaves the session closed. -/
def Api.closed : Contract.Post (api faulty) Error α := fun _ h _ => h = none

/-! ### The kinds of handlers -/

theorem safe_of_discard {p : Action α} {h : Session} {s : Server}
    (hp : (Leaderboards.contract faulty {}).Safe t closed p.discard h s) :
    (Leaderboards.contract faulty {}).Safe t closed p h s := by
  induction p generalizing h s with
  | ret a => exact hp
  | fail e => exact hp
  | op c k ih =>
    intro s₁ hrely hinv
    obtain ⟨hpre, hout⟩ := hp s₁ hrely hinv
    exact ⟨hpre, fun L r s₂ h₂ hexec => ⟨(hout L r s₂ h₂ hexec).1, ih r (hout L r s₂ h₂ hexec).2⟩⟩

/-- A function that a request runs for its effect. -/
theorem Request.safe_endpoint (r : Request) {p : Action α} (hr : r.handler = p.discard) :
    (Api.contract faulty).Safe t Api.closed p.endpoint none sh := by
  have hsafe : (Leaderboards.contract faulty {}).Safe t closed p none sh.1.1 :=
    safe_of_discard (hr ▸ Request.safe r.respects_default)
  exact Contract.safe_inl (Contract.safe_inl hsafe)

/-- A command that only looks, as a program. -/
theorem Cmd.Looks.safe {c : Cmd} (hc : c.Looks) {s : Server} :
    (contract faulty {}).Safe t closed (Prog.op (S := Service) c .ret : Action c.Res) none s := by
  cases c with
  | sql q => exact safe_read hc (fun _ _ => rfl) fun _ _ _ _ _ _ _ _ _ _ => rfl
  | redis c =>
    have hfinite : c.Finite := by
      cases c with
      | pipe => exact hc.elim
      | _ => trivial
    exact safe_redis hfinite (fun _ _ _ _ => rfl) fun _ _ _ _ _ _ _ => rfl
  | _ => exact hc.elim

/-- A handler that only looks. -/
theorem Api.safe_looks {p : Endpoint α} (hp : p.Uses Api.Looks) :
    (Api.contract faulty).Safe t Api.closed p none sh := by
  induction p generalizing sh with
  | ret a => exact rfl
  | fail e => exact rfl
  | op c k ih =>
    intro sh₁ hrely hinv
    rcases c with (c | l) | q
    · obtain ⟨hpre, hout⟩ := Cmd.Looks.safe (t := t) hp.1 sh₁.1.1 (Rely.refl [] _) hinv
      refine ⟨hpre, fun L r sh₂ h₂ hexec => ?_⟩
      obtain ⟨hguar, hclosed⟩ := hout L r sh₂.1.1 h₂ hexec.1.1
      obtain rfl : h₂ = none := hclosed
      exact ⟨.inr (.inr hguar), ih r (hp.2 r)⟩
    · refine ⟨trivial, fun L r sh₂ h₂ hexec => ?_⟩
      obtain ⟨⟨rfl, hsh, -⟩, -⟩ := hexec
      exact ⟨.inr (.inl hsh), ih r (hp.2 r)⟩
    · refine ⟨trivial, fun L r sh₂ h₂ hexec => ?_⟩
      obtain ⟨rfl, hsh, -⟩ := hexec
      exact ⟨.inl hsh, ih r (hp.2 r)⟩

/-- Handlers in sequence. -/
theorem Api.safe_then {p : Endpoint α} {f : α → Endpoint β}
    (hp : (Api.contract faulty).Safe t Api.closed p none sh)
    (hf : ∀ a sh₁, (Api.contract faulty).Safe t Api.closed (f a) none sh₁) :
    (Api.contract faulty).Safe t Api.closed (p >>= f) none sh := by
  refine Contract.safe_bind (Q := fun _ h _ => h = none) (hp.mono ?_) ?_
  · rintro (e | a) h sh₁ hclosed <;> exact hclosed
  · rintro a h sh₁ rfl
    exact hf a sh₁

/-- A statement on `collection_boards`. -/
theorem MembershipQuery.safe_perform (q : MembershipQuery) :
    (Api.contract faulty).Safe t Api.closed q.perform none sh :=
  Contract.safe_inr fun _ _ => rfl

theorem Api.safe_lookup {slug : String} :
    (Api.contract faulty).Safe t Api.closed (Collections.getBySlug slug).endpoint none sh :=
  Api.safe_looks (Action.looks_endpoint (looks_select rfl fun _ => uses_okOr _ _))

theorem Api.safe_board {slug : String} :
    (Api.contract faulty).Safe t Api.closed (Boards.getBySlug slug).endpoint none sh :=
  Api.safe_looks (Action.looks_endpoint (looks_getBySlug slug))

theorem Collections.safe_addBoard (slug : String) (input : AddBoardToCollection) :
    (Api.contract faulty).Safe t Api.closed (addBoard slug input) none sh := by
  refine Api.safe_then Api.safe_lookup fun c sh₁ => Api.safe_then Api.safe_board fun b sh₂ =>
    Api.safe_then (MembershipQuery.safe_perform _) fun r sh₃ => ?_
  split <;> exact rfl

theorem Collections.safe_removeBoard (slug boardSlug : String) :
    (Api.contract faulty).Safe t Api.closed (removeBoard slug boardSlug) none sh := by
  refine Api.safe_then Api.safe_lookup fun c sh₁ => Api.safe_then Api.safe_board fun b sh₂ =>
    Api.safe_then (MembershipQuery.safe_perform _) fun r sh₃ => ?_
  cases r with
  | ok n =>
    dsimp only [Prog.failIf]
    split <;> exact rfl
  | error e => exact rfl

/-! ### The routes -/

/-- A handler that keeps the contract. -/
def Api.Safe (faulty : Prop) (p : Endpoint Unit) : Prop :=
  ∀ t sh, (Api.contract faulty).Safe t Api.closed p none sh

namespace Http

/-- The handlers of writing methods keep the contract. -/
structure Routes.WriteSafe (faulty : Prop) (routes : Routes) : Prop where
  post : ∀ p ∈ routes.post, Api.Safe faulty p := by simp
  patch : ∀ p ∈ routes.patch, Api.Safe faulty p := by simp
  delete : ∀ p ∈ routes.delete, Api.Safe faulty p := by simp

theorem safe_run {p : Endpoint β} (hp : ∀ t sh, (Api.contract faulty).Safe t Api.closed p none sh) :
    ∀ q ∈ run p, Api.Safe faulty q := by
  intro q hq t sh
  obtain rfl := Option.some.inj hq
  exact Api.safe_then (hp t sh) fun _ _ => rfl

theorem safe_extract {x : Option α} {handler : α → Endpoint β}
    (hhandler : ∀ a t sh, (Api.contract faulty).Safe t Api.closed (handler a) none sh) :
    ∀ q ∈ extract x handler, Api.Safe faulty q := by
  intro q hq t sh
  obtain rfl := Option.some.inj hq
  cases x with
  | none => exact rfl
  | some a => exact Api.safe_then (hhandler a t sh) fun _ _ => rfl

end Http

namespace App

variable {moment : Moment Key} {x : Http.Extracted} {headers : Auth.HeaderMap}

theorem boardRoutes_safe (path : List String) :
    (app.boardRoutes moment x headers path).WriteSafe faulty := by
  unfold boardRoutes
  -- A case for each path of the router; a route without fields here has only GET.
  split
  · exact { post := Http.safe_extract fun input _ _ =>
      (Request.createBoard input).safe_endpoint rfl }
  · exact
      { patch := Http.safe_extract fun input _ _ =>
          (Request.updateBoard _ input).safe_endpoint rfl
        delete := Http.safe_run fun _ _ =>
          (Request.deleteBoard _ _).safe_endpoint (bind_pure _).symm }
  · exact { post := Http.safe_extract fun input _ _ =>
      (Request.createEntry _ input).safe_endpoint rfl }
  · exact
      { patch := Http.safe_extract fun input _ _ =>
          (Request.updateEntry _ _ input).safe_endpoint rfl
        delete := Http.safe_run fun _ _ =>
          (Request.deleteEntry _ _).safe_endpoint (bind_pure _).symm }
  · exact {}
  · exact
      { post := Http.safe_extract fun input _ _ =>
          (Request.createVersion _ _ input).safe_endpoint rfl }
  · exact {}
  · exact {}
  · exact {}
  · exact {}
  · exact
      { post := Http.safe_extract fun input _ _ =>
          (Request.createReference _ input).safe_endpoint rfl }
  · exact
      { delete := Http.safe_extract fun id _ _ =>
          (Request.deleteReference _ id).safe_endpoint (bind_pure _).symm }
  · exact
      { post := Http.safe_extract fun input _ _ =>
          (Request.submit _ _ input).safe_endpoint (bind_pure _).symm }
  · exact
      { post := Http.safe_extract fun input _ _ => (Request.snapshot _ _ input).safe_endpoint rfl }
  · exact {}
  · exact {}
  · exact {}

theorem collectionRoutes_safe (path : List String) :
    (app.collectionRoutes x path).WriteSafe faulty := by
  unfold collectionRoutes
  split
  · exact
      { post := Http.safe_extract fun input _ _ =>
          (Request.createCollection input).safe_endpoint rfl }
  · exact
      { patch := Http.safe_extract fun input _ _ =>
          (Request.updateCollection _ input).safe_endpoint rfl
        delete := Http.safe_run fun _ _ =>
          (Request.deleteCollection _).safe_endpoint (bind_pure _).symm }
  · exact { post := Http.safe_extract fun input _ _ => Collections.safe_addBoard _ input }
  · exact { delete := Http.safe_run fun _ _ => Collections.safe_removeBoard _ _ }
  · exact {}

/-- What a route runs behind the middleware keeps the contract. -/
theorem guardedRoutes_safe {method : Auth.Method} (path : List String) :
    ∀ p ∈ (app.guardedRoutes moment x headers path).handler method, Api.Safe faulty p := by
  have hwrite : (app.guardedRoutes moment x headers path).WriteSafe faulty := by
    unfold guardedRoutes
    split
    · exact boardRoutes_safe _
    · exact collectionRoutes_safe _
    · exact {}
  by_cases hread : method.isRead = true
  · exact fun p hp t sh => Api.safe_looks (guardedRoutes_looks hread path p hp)
  · intro p hp
    cases method with
    | post => exact hwrite.post p hp
    | patch => exact hwrite.patch p hp
    | delete => exact hwrite.delete p hp
    | get => exact absurd rfl hread
    | head => exact absurd rfl hread
    | options => exact absurd rfl hread
    | _ => cases hp

end App

/-- **Every message keeps the contract.** -/
theorem Message.safe (m : Message app) : Api.Safe faulty m.serve := by
  intro t sh
  -- What writes is a request of `Routes.lean`, with its answer thrown away.
  cases m with
  | http moment request =>
    have hserve : (http moment request).serve = app.http moment request := rfl
    rw [hserve, App.http]
    split
    · rename_i handler hhandler
      split
      · exact App.guardedRoutes_safe _ _ hhandler t sh
      · exact rfl
    · exact rfl
  | frame opened payload =>
    exact (Request.submitFrame app.caller opened.connection.boardSlug payload
      opened.connection.writeAuthorized).safe_endpoint (bind_pure _).symm
  | push headers body parsed =>
    have hserve :
        (push headers body parsed).serve = (runPush app headers body parsed).endpoint := rfl
    rw [hserve, runPush]
    split
    · rename_i push hpush
      exact (Request.sync parsed push.note).safe_endpoint (bind_pure _).symm
    · exact rfl
  | operator command =>
    cases command with
    | sync parsed note => exact (Request.sync parsed note).safe_endpoint (bind_pure _).symm
    | deleteBoard slug =>
      exact (Request.deleteBoard app.caller slug).safe_endpoint (bind_pure _).symm
    | deleteCollection slug =>
      exact (Request.deleteCollection slug).safe_endpoint (bind_pure _).symm
    | importBoard hashOrder doc =>
      exact (Request.importBoard hashOrder doc).safe_endpoint (bind_pure _).symm
    | exportBoard slug => exact (Request.exportBoard slug).safe_endpoint (bind_pure _).symm

end Leaderboards
