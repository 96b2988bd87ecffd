import CICJudging.App.Login
import CICJudging.Library.Transition

/-! The log-in screen over time. Lookups, verifications and sign-ins complete in any
order, and the id of the last verification is kept in the defaults, where a later
sign-in finds it. Only numbers of registered judges get as far as that. -/
namespace CICJudging

open Transition

/-- The phone authentication service: the number that it issued an id for, and the
number of the account that such a sign-in yields, in E.164 format. -/
structure PhoneAuthProvider where
  issuedFor : String → Option (List Char)
  account : List Char → List Char
  issuedFor_empty : issuedFor "" = none
  account_e164 : ∀ phoneNumber number, AsksFor phoneNumber number → account phoneNumber = number.e164

/-- `lookups` and `verifications` are the texts of the numbers whose lookup or
verification has not completed, and `signIns` the ids of the sign-ins. -/
structure LoginVC where
  root : Root
  lookups : List (List Char)
  verifications : List (List Char)
  authVerificationID : Option String
  signIns : List String
  currentUser : Option (List Char)

/-- After an install. -/
def LoginVC.start (root : Root) : LoginVC := ⟨root, [], [], none, [], none⟩

inductive LoginEvent where
  | submitNumber (phoneNumberTxtFld : FieldText)
  | lookedUp (phoneNumber : List Char)
  | verified (phoneNumber : List Char) (verificationID : Option String)
  | submitOtp
  | signedIn (verificationID : String) (accepted : Bool)
  | logOutUser
  | registerJudge (judgeId : JudgeId) (judge : Judge)

section Login

variable (auth : PhoneAuthProvider)

/-- The completion of `checkIfUserRegistred`; `none` if it raises. -/
def LoginVC.lookedUp (s : LoginVC) (phoneNumber : List Char) : Option LoginVC :=
  let s := { s with lookups := s.lookups.erase phoneNumber }
  match checkIfUserRegistred s.root (lookupKey phoneNumber) with
  | none => none
  | some false => some s
  | some true => some { s with verifications := s.verifications ++ [phoneNumber] }

/-- The completion of `verifyPhoneNumber`, with an id or an error. -/
def LoginVC.verified (s : LoginVC) (phoneNumber : List Char) (verificationID : Option String) :
    LoginVC :=
  let s := { s with verifications := s.verifications.erase phoneNumber }
  match verificationID with
  | none => s
  | some verificationID => { s with authVerificationID := some verificationID }

/-- `none` for a completion of something not outstanding, or one that the service
does not give. -/
def nextLogin (s : LoginVC) : LoginEvent → Option LoginVC
  | .submitNumber phoneNumberTxtFld =>
      if !validatePhoneNumber phoneNumberTxtFld then some s
      else some { s with lookups := s.lookups ++ [phoneNumberTxtFld.text] }
  | .lookedUp phoneNumber => if phoneNumber ∈ s.lookups then s.lookedUp phoneNumber else none
  | .verified phoneNumber verificationID =>
      if phoneNumber ∈ s.verifications ∧
          ∀ id ∈ verificationID, auth.issuedFor id = some (withCountryCode phoneNumber) then
        some (s.verified phoneNumber verificationID)
      else none
  | .submitOtp => some { s with signIns := s.signIns ++ [s.authVerificationID.getD ""] }
  | .signedIn verificationID accepted =>
      if verificationID ∈ s.signIns then
        let s := { s with signIns := s.signIns.erase verificationID }
        if accepted then
          (auth.issuedFor verificationID).map fun phoneNumber =>
            { s with currentUser := some (auth.account phoneNumber) }
        else some s
      else none
  | .logOutUser => some { s with currentUser := none, authVerificationID := none }
  | .registerJudge judgeId judge =>
      some { s with root := { s.root with judges := s.root.judges ++ [(judgeId, judge)] } }

end Login

/-- The text was submitted and accepted. -/
def Accepted (submitted : FieldText → Prop) (phoneNumber : List Char) : Prop :=
  ∃ field, submitted field ∧ field.text = phoneNumber ∧ validatePhoneNumber field = true

/-- The text was accepted, and its key is that of a registered judge. -/
structure Registered (submitted : FieldText → Prop) (root : Root) (phoneNumber : List Char) :
    Prop where
  accepted : Accepted submitted phoneNumber
  known : checkIfUserRegistred root (lookupKey phoneNumber) = some true

theorem checkIfUserRegistred_append {root : Root} {key : List Char}
    (h : checkIfUserRegistred root key = some true) (judgeId : JudgeId) (judge : Judge) :
    checkIfUserRegistred { root with judges := root.judges ++ [(judgeId, judge)] } key =
      some true := by
  unfold checkIfUserRegistred at h ⊢
  split_ifs at h with hPath
  rw [if_pos hPath, List.any_append, Option.some.inj h, Bool.true_or]

theorem Registered.append {submitted : FieldText → Prop} {root : Root} {phoneNumber : List Char}
    (h : Registered submitted root phoneNumber) (judgeId : JudgeId) (judge : Judge) :
    Registered submitted { root with judges := root.judges ++ [(judgeId, judge)] } phoneNumber :=
  ⟨h.accepted, checkIfUserRegistred_append h.known judgeId judge⟩

section Provenance

variable {auth : PhoneAuthProvider} {submitted : FieldText → Prop}

variable (auth submitted) in
/-- The id, if it was issued at all, was issued for the number of a registered judge. -/
def IssuedForRegistered (root : Root) (verificationID : String) : Prop :=
  ∀ number, auth.issuedFor verificationID = some number →
    ∃ phoneNumber, Registered submitted root phoneNumber ∧ number = withCountryCode phoneNumber

variable (auth submitted) in
/-- What every stage of a log-in has gone through before. -/
structure FromLookups (s : LoginVC) : Prop where
  lookups : ∀ phoneNumber ∈ s.lookups, Accepted submitted phoneNumber
  verifications : ∀ phoneNumber ∈ s.verifications, Registered submitted s.root phoneNumber
  stored : ∀ id ∈ s.authVerificationID, IssuedForRegistered auth submitted s.root id
  signIns : ∀ id ∈ s.signIns, IssuedForRegistered auth submitted s.root id
  user : ∀ account ∈ s.currentUser, ∃ phoneNumber, Registered submitted s.root phoneNumber ∧
    account = auth.account (withCountryCode phoneNumber)

/-- The only numbers submitted are of the kind. -/
def LoginEvent.Submits (submitted : FieldText → Prop) : LoginEvent → Prop
  | submitNumber field => submitted field
  | _ => True

theorem FromLookups.start (root : Root) : FromLookups auth submitted (.start root) where
  lookups := nofun
  verifications := nofun
  stored := nofun
  signIns := nofun
  user := nofun

theorem FromLookups.lookedUp {s after : LoginVC} {phoneNumber : List Char}
    (h : FromLookups auth submitted s) (hMem : phoneNumber ∈ s.lookups)
    (hNext : s.lookedUp phoneNumber = some after) : FromLookups auth submitted after := by
  have hErase : ∀ other ∈ s.lookups.erase phoneNumber, Accepted submitted other :=
    fun other hOther => h.lookups other (List.mem_of_mem_erase hOther)
  simp only [LoginVC.lookedUp] at hNext
  split at hNext
  · cases hNext
  · cases hNext
    exact { h with lookups := hErase }
  · next hRegistered =>
      cases hNext
      refine { h with
        lookups := hErase
        verifications := List.forall_mem_append.mpr ⟨h.verifications, ?_⟩ }
      exact List.forall_mem_singleton.mpr ⟨h.lookups phoneNumber hMem, hRegistered⟩

/-- The id of a verification is for the number that was looked up. -/
theorem FromLookups.verified {s : LoginVC} {phoneNumber : List Char}
    {verificationID : Option String} (h : FromLookups auth submitted s)
    (hMem : phoneNumber ∈ s.verifications)
    (hIssued : ∀ id ∈ verificationID, auth.issuedFor id = some (withCountryCode phoneNumber)) :
    FromLookups auth submitted (s.verified phoneNumber verificationID) := by
  have hErase : ∀ other ∈ s.verifications.erase phoneNumber,
      Registered submitted s.root other :=
    fun other hOther => h.verifications other (List.mem_of_mem_erase hOther)
  cases verificationID with
  | none => exact { h with verifications := hErase }
  | some id =>
      refine { h with verifications := hErase, stored := fun other hOther number hNumber => ?_ }
      cases hOther
      refine ⟨phoneNumber, h.verifications phoneNumber hMem, ?_⟩
      exact Option.some.inj (hNumber.symm.trans (hIssued id rfl))

/-- What is looked up later does not take back what was found before. -/
theorem FromLookups.registerJudge {s : LoginVC} (h : FromLookups auth submitted s)
    (judgeId : JudgeId) (judge : Judge) :
    FromLookups auth submitted
      { s with root := { s.root with judges := s.root.judges ++ [(judgeId, judge)] } } := by
  have hIssued : ∀ id, IssuedForRegistered auth submitted s.root id →
      IssuedForRegistered auth submitted
        { s.root with judges := s.root.judges ++ [(judgeId, judge)] } id := by
    intro id hId number hNumber
    obtain ⟨phoneNumber, hRegistered, hSame⟩ := hId number hNumber
    exact ⟨phoneNumber, hRegistered.append judgeId judge, hSame⟩
  refine ⟨h.lookups, fun phoneNumber hMem => (h.verifications phoneNumber hMem).append _ _,
    fun id hId => hIssued id (h.stored id hId), fun id hId => hIssued id (h.signIns id hId),
    fun account hAccount => ?_⟩
  obtain ⟨phoneNumber, hRegistered, hSame⟩ := h.user account hAccount
  exact ⟨phoneNumber, hRegistered.append judgeId judge, hSame⟩

theorem FromLookups.next {s after : LoginVC} {event : LoginEvent}
    (h : FromLookups auth submitted s) (hSubmits : event.Submits submitted)
    (hNext : nextLogin auth s event = some after) : FromLookups auth submitted after := by
  cases event with
  | submitNumber field =>
      simp only [nextLogin] at hNext
      split_ifs at hNext with hInvalid
      · cases hNext
        exact h
      · cases hNext
        refine { h with lookups := List.forall_mem_append.mpr ⟨h.lookups, ?_⟩ }
        exact List.forall_mem_singleton.mpr ⟨field, hSubmits, rfl, by simpa using hInvalid⟩
  | lookedUp phoneNumber =>
      simp only [nextLogin] at hNext
      split_ifs at hNext with hMem
      exact h.lookedUp hMem hNext
  | verified phoneNumber verificationID =>
      simp only [nextLogin] at hNext
      split_ifs at hNext with hEnabled
      cases hNext
      exact h.verified hEnabled.1 hEnabled.2
  | submitOtp =>
      cases hNext
      refine { h with signIns := List.forall_mem_append.mpr ⟨h.signIns, ?_⟩ }
      refine List.forall_mem_singleton.mpr ?_
      cases hStored : s.authVerificationID with
      | none =>
          intro number hNumber
          rw [Option.getD_none, auth.issuedFor_empty] at hNumber
          cases hNumber
      | some id => exact h.stored id hStored
  | signedIn verificationID accepted =>
      simp only [nextLogin] at hNext
      split_ifs at hNext with hMem hAccepted
      · obtain ⟨number, hNumber, rfl⟩ := Option.map_eq_some_iff.mp hNext
        refine { h with
          signIns := fun id hId => h.signIns id (List.mem_of_mem_erase hId)
          user := fun account hAccount => ?_ }
        obtain ⟨phoneNumber, hRegistered, rfl⟩ := h.signIns verificationID hMem number hNumber
        cases hAccount
        exact ⟨phoneNumber, hRegistered, rfl⟩
      · cases hNext
        exact { h with signIns := fun id hId => h.signIns id (List.mem_of_mem_erase hId) }
  | logOutUser =>
      cases hNext
      exact { h with stored := nofun, user := nofun }
  | registerJudge judgeId judge =>
      cases hNext
      exact h.registerJudge judgeId judge

/-- The key that the app uses for a signed-in judge is the one that was looked up. -/
theorem getUserPhoneNumber_account {phoneNumber : FieldText}
    (hValid : validatePhoneNumber phoneNumber = true) (hPlain : SpelledPlainly phoneNumber.text) :
    getUserPhoneNumber (some (auth.account (withCountryCode phoneNumber.text))) =
      lookupKey phoneNumber.text := by
  obtain ⟨hKey, hAsks⟩ := (faithful_iff_spelledPlainly hValid).mpr hPlain
  rw [auth.account_e164 _ _ hAsks, getUserPhoneNumber_e164 hValid, hKey]

theorem exists_judge_of_registered {root : Root} {key : List Char}
    (h : checkIfUserRegistred root key = some true) :
    ∃ entry ∈ root.judges, entry.1.key = String.ofList key := by
  unfold checkIfUserRegistred at h
  split_ifs at h
  obtain ⟨entry, hMem, hKey⟩ := List.any_eq_true.mp (Option.some.inj h)
  exact ⟨entry, hMem, beq_iff_eq.mp hKey⟩

/-- In every order of lookups, verifications and sign-ins, of any number of attempts,
whoever is signed in has an accepted number that was submitted and found among the
judges. If it was spelled plainly, the key of the signed-in judge is registered. -/
theorem signedIn_registered {root : Root} {events : List LoginEvent} {final : LoginVC}
    {account : List Char} (hRun : run (nextLogin auth) (.start root) events = some final)
    (hUser : final.currentUser = some account) :
    ∃ phoneNumber, .submitNumber phoneNumber ∈ events ∧ validatePhoneNumber phoneNumber = true ∧
      checkIfUserRegistred final.root (lookupKey phoneNumber.text) = some true ∧
      account = auth.account (withCountryCode phoneNumber.text) ∧
      (SpelledPlainly phoneNumber.text → ∃ entry ∈ final.root.judges,
        entry.1.key = String.ofList (getUserPhoneNumber final.currentUser)) := by
  have hSubmits : ∀ event ∈ events, event.Submits fun field => .submitNumber field ∈ events := by
    intro event hMem
    cases event with
    | submitNumber field => exact hMem
    | _ => trivial
  have hFinal : FromLookups auth (fun field => .submitNumber field ∈ events) final :=
    run_invariant_of_enabled (nextLogin auth) (fun _ _ _ h hEvent hNext => h.next hEvent hNext) hRun
      hSubmits (FromLookups.start root)
  obtain ⟨_, ⟨⟨field, hMem, rfl, hValid⟩, hKnown⟩, rfl⟩ := hFinal.user account hUser
  refine ⟨field, hMem, hValid, hKnown, rfl, fun hPlain => ?_⟩
  rw [hUser, getUserPhoneNumber_account hValid hPlain]
  exact exists_judge_of_registered hKnown

end Provenance

namespace Contest

/-- A service that asks everybody for the number of the first judge. -/
def provider : PhoneAuthProvider where
  issuedFor id := if id = "" then none else some american.text
  account phoneNumber := (denoted phoneNumber).e164
  issuedFor_empty := rfl
  account_e164 phoneNumber number hAsks := by rw [hAsks.2]

/-- The first judge logs in with the number that is registered. -/
def logIn : List LoginEvent :=
  [.submitNumber american, .lookedUp american.text, .verified american.text (some "id"), .submitOtp,
    .signedIn "id" true]

theorem logIn_registered :
    ∃ final account, run (nextLogin provider) (.start threeTeams) logIn = some final ∧
      ∃ phoneNumber, .submitNumber phoneNumber ∈ logIn ∧ validatePhoneNumber phoneNumber = true ∧
        checkIfUserRegistred final.root (lookupKey phoneNumber.text) = some true ∧
        account = provider.account (withCountryCode phoneNumber.text) ∧
        (SpelledPlainly phoneNumber.text → ∃ entry ∈ final.root.judges,
          entry.1.key = String.ofList (getUserPhoneNumber final.currentUser)) := by
  have hSome : ((run (nextLogin provider) (.start threeTeams) logIn).bind
      LoginVC.currentUser).isSome = true := by
    decide +kernel
  obtain ⟨account, hAccount⟩ := Option.isSome_iff_exists.mp hSome
  obtain ⟨final, hRun, hUser⟩ := Option.bind_eq_some_iff.mp hAccount
  exact ⟨final, account, hRun, signedIn_registered hRun hUser⟩

end Contest

end CICJudging
