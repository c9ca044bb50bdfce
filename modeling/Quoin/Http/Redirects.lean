import Mathlib
import Quoin.Http.Url

/-!
# Quoin — redirects

`send` issues a request, and another one for each redirect, to where the response's
`Location` leads from the current URL. What the peers answer is any list; behind its end
the loop still waits.

Where the origin changes, the next request carries no credentials, and what was dropped
does not come back (`sent_secure`). The loop ends within `maxRedirects` redirects, unless
that is negative: the test for the last one is `left == 0` (`send_secure_bounded`).

## Results

* `sent_secure` — no request after a change of origin carries credentials;
* `send_secure_bounded` — this, and at most `maxRedirects` redirects, exactly if that number is not
  negative, or the first redirect leads nowhere;
* `send_secure_bounded_negative` — a negative `maxRedirects` follows every redirect there is.
-/

namespace Quoin.Http

abbrev Header := Text × Text

/-- An `[HTTP]Body` that a request carries. -/
structure Body where
  bytes : List UInt8
  mediaType : Option Text

structure Request where
  method : Text
  url : Text
  headers : List Header
  body : Option Body
  insecure : Bool
  followRedirects : Bool
  maxRedirects : Int64

structure Response where
  status : Int
  headers : List Header

/-- `String#lower` as far as it is needed: what it does to ASCII characters. -/
def LowersAscii (lower : Text → Text) : Prop :=
  ∀ s, (∀ c ∈ s, c.toNat < 128) → lower s = s.map Char.toLower

section Sending

variable (lower : Text → Text)

/-! ## One request -/

/-- `find:named:`. -/
def Response.find (headers : List Header) (name : Text) : Option Text :=
  (headers.find? fun pair => lower pair.1 = lower name).map Prod.snd

def Response.location (resp : Response) : Option Text :=
  Response.find lower resp.headers "location".toList

/-- A 3xx status and a Location header. -/
def Response.isRedirect (resp : Response) : Bool :=
  300 ≤ resp.status ∧ resp.status < 400 ∧ (resp.location lower).isSome

def Request.names (r : Request) (name : Text) : Bool :=
  r.headers.any fun p => lower p.1 = name

/-- The header lines that `requestBytes:path:` adds behind the request's own. -/
def Request.added (r : Request) : List Header :=
  (if r.names lower "accept-encoding".toList then []
    else [("Accept-Encoding".toList, "gzip, zstd".toList)]) ++
    (match r.body.bind Body.mediaType with
      | some mediaType =>
        if r.names lower "content-type".toList then [] else [("Content-Type".toList, mediaType)]
      | none => []) ++
    (match r.body with
      | some body => [("Content-Length".toList, (Nat.repr body.bytes.length).toList)]
      | none => []) ++
    [("Connection".toList, "close".toList)]

/-- All header lines of a request. -/
def Request.lines (r : Request) (hostHeader : Text) : List Header :=
  ("Host".toList, hostHeader) :: r.headers ++ r.added lower

/-- The socket of a request; TLS may be told to skip the check of certificates. -/
inductive Socket where
  | tcp (target : Text)
  | tls (target : Text) (insecure : Bool)
  deriving DecidableEq

/-- What a request does: the socket that it connects, and the lines that it writes there. -/
structure Sent where
  target : Target
  socket : Socket
  method : Text
  lines : List Header

/-- `internalSend` up to the response; nothing if the URL cannot be taken apart. -/
def Request.internalSend (r : Request) : Option Sent :=
  (parseUrl r.url).map fun url =>
    let address := url.host ++ ':' :: url.port
    let hostHeader := if url.port = defaultPort url.scheme then url.host else address
    { target := url
      socket := if url.scheme = "https".toList then .tls address r.insecure else .tcp address
      method := r.method
      lines := r.lines lower hostHeader }

/-! ## The next request -/

/-- Scheme, host and port are the same. -/
def Target.SameOrigin (a b : Target) : Prop :=
  a.scheme = b.scheme ∧ a.host = b.host ∧ a.port = b.port

instance decidableSameOrigin (a b : Target) : Decidable (a.SameOrigin b) :=
  inferInstanceAs (Decidable (_ ∧ _ ∧ _))

def isCredential (p : Header) : Bool :=
  let n := lower p.1
  n = "authorization".toList ∨ n = "proxy-authorization".toList ∨ n = "cookie".toList

/-- `nextRequestFor:`, of a response with a Location. -/
def Request.nextRequestFor (r : Request) (resp : Response) : Option Request := do
  let location ← resp.location lower
  let target ← resolveLocation location r.url
  let origin ← parseUrl r.url
  let goal ← parseUrl target
  let preserve := resp.status = 307 ∨ resp.status = 308
  some
    { url := target
      insecure := r.insecure
      followRedirects := r.followRedirects
      maxRedirects := r.maxRedirects
      headers :=
        if origin.SameOrigin goal then r.headers
        else r.headers.filter fun p => !isCredential lower p
      method :=
        if preserve then r.method
        else if resp.status = 303 ∨ r.method ≠ "GET".toList ∧ r.method ≠ "HEAD".toList then
          "GET".toList
        else r.method
      body := if preserve then r.body else none }

/-! ## The loop -/

/-- What becomes of a request: a response, or an error of the connection or in the head. -/
inductive Answer where
  | response (resp : Response)
  | fails

inductive Raised where
  /-- A URL that cannot be taken apart. -/
  | notUnderstood
  | connection
  /-- `HTTP: too many redirects`. -/
  | tooManyRedirects
  /-- `left - 1` below the least Integer. -/
  | overflow
  deriving DecidableEq

inductive Ending where
  | returned (resp : Response)
  | raised (error : Raised)
  | waiting

structure Run where
  sent : List Sent
  ending : Ending

/-- The loop of `send`, with the redirects that are left. -/
def sendLoop (current : Request) (left : Int) : List Answer → Run
  | [] =>
    match current.internalSend lower with
    | none => ⟨[], .raised .notUnderstood⟩
    | some s => ⟨[s], .waiting⟩
  | answer :: answers =>
    match current.internalSend lower with
    | none => ⟨[], .raised .notUnderstood⟩
    | some s =>
      match answer with
      | .fails => ⟨[s], .raised .connection⟩
      | .response resp =>
        if resp.isRedirect lower then
          if left = 0 then ⟨[s], .raised .tooManyRedirects⟩
          else
            match current.nextRequestFor lower resp with
            | none => ⟨[s], .raised .notUnderstood⟩
            | some next =>
              if left = -2 ^ 63 then ⟨[s], .raised .overflow⟩
              else
                let run := sendLoop next (left - 1) answers
                ⟨s :: run.sent, run.ending⟩
        else ⟨[s], .returned resp⟩

def send (r : Request) (answers : List Answer) : Run :=
  if r.followRedirects then sendLoop lower r r.maxRedirects.toInt answers
  else
    match r.internalSend lower with
    | none => ⟨[], .raised .notUnderstood⟩
    | some s =>
      match answers with
      | [] => ⟨[s], .waiting⟩
      | .fails :: _ => ⟨[s], .raised .connection⟩
      | .response resp :: _ => ⟨[s], .returned resp⟩

/-! ## What is promised -/

/-- The credentials among the lines of a request. -/
def Sent.credentials (s : Sent) : List Header := s.lines.filter (isCredential lower)

/-- A request to another origin than the one before it carries no credentials, and what an
earlier request did not carry does not come back. -/
structure Run.Secure (run : Run) : Prop where
  stripped : run.sent.IsChain fun a b => ¬a.target.SameOrigin b.target → b.credentials lower = []
  dropped : run.sent.Pairwise fun a b => (b.credentials lower).Sublist (a.credentials lower)

/-- With so many redirects at most the run has ended. -/
def Run.Bounded (run : Run) (maxRedirects : Nat) (answers : List Answer) : Prop :=
  run.sent.length ≤ maxRedirects + 1 ∧
    (maxRedirects < answers.length → run.ending ≠ .waiting)

end Sending

variable {lower : Text → Text} {r next : Request} {resp : Response} {s : Sent}

/-! ## Credentials -/

section Credentials

/-- The next request has some of the headers, and none of the credentials where the origin
changes. -/
theorem nextRequestFor_headers (h : r.nextRequestFor lower resp = some next) :
    next.headers.Sublist r.headers ∧ ∃ a b, parseUrl r.url = some a ∧
      parseUrl next.url = some b ∧
      (¬a.SameOrigin b → next.headers.filter (isCredential lower) = []) := by
  unfold Request.nextRequestFor at h
  simp only [Option.bind_eq_bind, Option.bind_eq_some_iff, Option.some.injEq] at h
  obtain ⟨location, -, target, -, a, ha, b, hb, rfl⟩ := h
  by_cases hSame : a.SameOrigin b
  · simp only [hSame, if_true]
    exact ⟨List.Sublist.refl _, a, b, ha, hb, fun hNot => absurd hSame hNot⟩
  · simp only [hSame, if_false]
    exact ⟨List.filter_sublist, a, b, ha, hb, fun _ => by simp [List.filter_filter]⟩

/-- The names that `requestBytes:path:` writes of itself. -/
def WRITTEN : List Text :=
  ["Host".toList, "Accept-Encoding".toList, "Content-Type".toList, "Content-Length".toList,
    "Connection".toList]

theorem written_ascii : ∀ name ∈ WRITTEN, ∀ c ∈ name, c.toNat < 128 := by
  simp [WRITTEN]

theorem written_other : ∀ name ∈ WRITTEN,
    ¬(name.map Char.toLower = "authorization".toList ∨
      name.map Char.toLower = "proxy-authorization".toList ∨
      name.map Char.toLower = "cookie".toList) := by
  decide +kernel

theorem not_credential (hLower : LowersAscii lower) {p : Header} (hMem : p.1 ∈ WRITTEN) :
    isCredential lower p = false := by
  rw [isCredential, hLower p.1 (written_ascii p.1 hMem)]
  exact decide_eq_false (written_other p.1 hMem)

theorem added_written (r : Request) : ∀ p ∈ r.added lower, p.1 ∈ WRITTEN := by
  intro p hp
  simp only [Request.added, List.mem_append] at hp
  rcases hp with ((hp | hp) | hp) | hp
  · split at hp
    · cases hp
    · rw [List.mem_singleton.mp hp]
      simp [WRITTEN]
  · split at hp
    · split at hp
      · cases hp
      · rw [List.mem_singleton.mp hp]
        simp [WRITTEN]
    · cases hp
  · split at hp
    · rw [List.mem_singleton.mp hp]
      simp [WRITTEN]
    · cases hp
  · rw [List.mem_singleton.mp hp]
    simp [WRITTEN]

/-- The lines that are written besides the request's headers are no credentials. -/
theorem filter_lines (hLower : LowersAscii lower) (hostHeader : Text) :
    (r.lines lower hostHeader).filter (isCredential lower) =
      r.headers.filter (isCredential lower) := by
  have hHost : isCredential lower ("Host".toList, hostHeader) = false :=
    not_credential hLower List.mem_cons_self
  have hAdded : (r.added lower).filter (isCredential lower) = [] := by
    rw [List.filter_eq_nil_iff]
    intro p hp
    simp [not_credential hLower (added_written r p hp)]
  rw [Request.lines, List.cons_append, List.filter_cons, hHost, List.filter_append, hAdded]
  simp

theorem internalSend_spec (hLower : LowersAscii lower) (h : r.internalSend lower = some s) :
    parseUrl r.url = some s.target ∧
      s.credentials lower = r.headers.filter (isCredential lower) := by
  obtain ⟨url, hUrl, rfl⟩ := Option.map_eq_some_iff.mp h
  exact ⟨hUrl, filter_lines hLower _⟩

end Credentials

/-! ## The loop, turn by turn -/

section Turns

/-- A redirect that the loop follows. -/
def Follows (lower : Text → Text) (r : Request) (left : Int) (resp : Response) (next : Request) :
    Prop :=
  resp.isRedirect lower ∧ left ≠ 0 ∧ left ≠ -2 ^ 63 ∧ r.nextRequestFor lower resp = some next

/-- A run ends with the first request, or goes on with a redirect. -/
theorem sendLoop_cases (r : Request) (left : Int) (answers : List Answer) :
    ((sendLoop lower r left answers).sent = (r.internalSend lower).toList ∧
      ((sendLoop lower r left answers).ending = .waiting → answers = []) ∧
      ∀ resp next rest, answers = .response resp :: rest → ¬Follows lower r left resp next) ∨
    ∃ s resp next rest, answers = .response resp :: rest ∧ r.internalSend lower = some s ∧
      Follows lower r left resp next ∧
      (sendLoop lower r left answers).sent = s :: (sendLoop lower next (left - 1) rest).sent ∧
      (sendLoop lower r left answers).ending = (sendLoop lower next (left - 1) rest).ending := by
  cases answers with
  | nil =>
    left
    cases hSend : r.internalSend lower <;> simp [sendLoop, hSend]
  | cons answer answers =>
    cases hSend : r.internalSend lower with
    | none =>
      refine .inl ⟨by simp [sendLoop, hSend], by simp [sendLoop, hSend], ?_⟩
      rintro resp next rest - ⟨-, -, -, hNext⟩
      -- a request that is not sent has no URL, so no redirect came before it
      obtain ⟨-, a, -, hUrl, -⟩ := nextRequestFor_headers hNext
      simp [Request.internalSend, hUrl] at hSend
    | some s =>
      cases answer with
      | fails =>
        refine .inl ⟨by simp [sendLoop, hSend], by simp [sendLoop, hSend], ?_⟩
        intro resp next rest hEq
        cases hEq
      | response resp =>
        by_cases hFollows : ∃ next, Follows lower r left resp next
        · obtain ⟨next, hFollows⟩ := hFollows
          refine .inr ⟨s, resp, next, answers, rfl, rfl, hFollows, ?_⟩
          obtain ⟨hRedirect, hLeft, hLeast, hNext⟩ := hFollows
          simp only [sendLoop, hSend, hRedirect, if_true, if_neg hLeft, hNext, if_neg hLeast,
            and_self]
        · -- the loop stops: no redirect, none left, no URL to go to, or one from https to http
          have hStops : sendLoop lower r left (.response resp :: answers) = ⟨[s], .returned resp⟩ ∨
              ∃ e, sendLoop lower r left (.response resp :: answers) = ⟨[s], .raised e⟩ := by
            simp only [sendLoop, hSend]
            split
            next hRedirect =>
              split
              · exact .inr ⟨_, rfl⟩
              next hLeft =>
                split
                · exact .inr ⟨_, rfl⟩
                next next hNext =>
                  split
                  · exact .inr ⟨_, rfl⟩
                  next hLeast =>
                    exact absurd ⟨next, hRedirect, hLeft, hLeast, hNext⟩ hFollows
            · exact .inl rfl
          refine .inl ⟨?_, ?_, ?_⟩
          · rcases hStops with hEq | ⟨e, hEq⟩ <;> simp [hEq]
          · rcases hStops with hEq | ⟨e, hEq⟩ <;> simp [hEq]
          · intro resp' next rest hEq hThis
            cases hEq
            exact hFollows ⟨next, hThis⟩

/-- The first request is the one that the loop starts with. -/
theorem sendLoop_head (r : Request) (left : Int) (answers : List Answer) :
    (sendLoop lower r left answers).sent.head? = r.internalSend lower := by
  rcases sendLoop_cases r left answers with ⟨hSent, -⟩ | ⟨s, _, _, _, -, hSend, -, hSent, -⟩
  · rw [hSent]
    cases r.internalSend lower <;> rfl
  · rw [hSent, hSend]
    rfl

/-- What holds of runs that stop, and of a run whose rest it holds of, holds of all runs. -/
theorem sendLoop_induction (lower : Text → Text) {motive : Request → Int → List Answer → Prop}
    (stops : ∀ r left answers,
      (sendLoop lower r left answers).sent = (r.internalSend lower).toList →
      ((sendLoop lower r left answers).ending = .waiting → answers = []) → motive r left answers)
    (follows : ∀ r left s resp next rest, r.internalSend lower = some s →
      Follows lower r left resp next →
      (sendLoop lower r left (.response resp :: rest)).sent =
        s :: (sendLoop lower next (left - 1) rest).sent →
      (sendLoop lower r left (.response resp :: rest)).ending =
        (sendLoop lower next (left - 1) rest).ending →
      motive next (left - 1) rest → motive r left (.response resp :: rest))
    (r : Request) (left : Int) (answers : List Answer) : motive r left answers := by
  induction answers generalizing r left with
  | nil =>
    rcases sendLoop_cases r left [] with ⟨hSent, hEnding, -⟩ | ⟨_, _, _, _, hAnswers, -⟩
    · exact stops r left [] hSent hEnding
    · cases hAnswers
  | cons answer answers ih =>
    rcases sendLoop_cases r left (answer :: answers) with
      ⟨hSent, hEnding, -⟩ | ⟨s, resp, next, rest, hAnswers, hSend, hFollows, hSent, hEnding⟩
    · exact stops r left _ hSent hEnding
    · cases hAnswers
      exact follows r left s resp next _ hSend hFollows hSent hEnding (ih next (left - 1))

/-- The credentials of a run are the first request's. -/
theorem sendLoop_credentials (hLower : LowersAscii lower) (r : Request) (left : Int)
    (answers : List Answer) : ∀ s ∈ (sendLoop lower r left answers).sent,
      (s.credentials lower).Sublist (r.headers.filter (isCredential lower)) := by
  refine sendLoop_induction lower (motive := fun r left answers =>
    ∀ s ∈ (sendLoop lower r left answers).sent,
      (s.credentials lower).Sublist (r.headers.filter (isCredential lower))) ?_ ?_ r left answers
  · intro r left answers hSent _ s hs
    rw [hSent, Option.mem_toList] at hs
    rw [(internalSend_spec hLower hs).2]
  · intro r left s resp next rest hSend hFollows hSent _ hRest x hx
    rw [hSent] at hx
    rcases List.mem_cons.mp hx with rfl | hx
    · rw [(internalSend_spec hLower hSend).2]
    · exact (hRest x hx).trans ((nextRequestFor_headers hFollows.2.2.2).1.filter _)

/-- No credentials leave the origin. -/
theorem sendLoop_secure (hLower : LowersAscii lower) (r : Request) (left : Int)
    (answers : List Answer) : (sendLoop lower r left answers).Secure lower := by
  refine sendLoop_induction lower (motive := fun r left answers =>
    (sendLoop lower r left answers).Secure lower) ?_ ?_ r left answers
  · intro r left answers hSent _
    constructor
    all_goals
      rw [hSent]
      cases r.internalSend lower <;> simp
  · intro r left s resp next rest hSend hFollows hSent _ hRest
    obtain ⟨hHeaders, a, b, ha, hb, hStrip⟩ := nextRequestFor_headers hFollows.2.2.2
    obtain ⟨hUrl, hCredentials⟩ := internalSend_spec hLower hSend
    have hLater := sendLoop_credentials hLower next (left - 1) rest
    constructor
    · rw [hSent, List.isChain_cons]
      refine ⟨fun x hx hOther => ?_, hRest.stripped⟩
      rw [sendLoop_head, Option.mem_def] at hx
      obtain ⟨hNextUrl, hNextCredentials⟩ := internalSend_spec hLower hx
      rw [ha, Option.some.injEq] at hUrl
      rw [hb, Option.some.injEq] at hNextUrl
      rw [hNextCredentials]
      exact hStrip (by rwa [hUrl, hNextUrl])
    · rw [hSent, List.pairwise_cons]
      refine ⟨fun x hx => ?_, hRest.dropped⟩
      rw [hCredentials]
      exact (hLater x hx).trans (hHeaders.filter _)

/-- One request and an end. -/
theorem bounded_of_single {run : Run} {n : Nat} {answers : List Answer} {o : Option Sent}
    (hSent : run.sent = o.toList) (hEnding : run.ending = .waiting → answers = []) :
    run.Bounded n answers := by
  refine ⟨?_, fun hLess hWaits => ?_⟩
  · rw [hSent]
    cases o <;> simp
  · rw [hEnding hWaits] at hLess
    cases hLess

/-- A count that is not negative goes down to zero. -/
theorem sendLoop_bounded (r : Request) (left : Int) (answers : List Answer) (hLeft : 0 ≤ left) :
    (sendLoop lower r left answers).Bounded left.toNat answers := by
  revert hLeft
  refine sendLoop_induction lower (motive := fun r left answers => 0 ≤ left →
    (sendLoop lower r left answers).Bounded left.toNat answers) ?_ ?_ r left answers
  · intro r left answers hSent hEnding _
    exact bounded_of_single hSent hEnding
  · intro r left s resp next rest _ hFollows hSent hEnding hRest hLeft
    have hPos := hFollows.2.1
    obtain ⟨hFew, hEnds⟩ := hRest (by omega)
    refine ⟨?_, fun hLess => ?_⟩
    · rw [hSent, List.length_cons]
      omega
    · rw [hEnding]
      refine hEnds ?_
      rw [List.length_cons] at hLess
      omega

end Turns

/-! ## Whole runs -/

/-- A negative number of redirects is followed nowhere: the first answer is no redirect to
somewhere, or `left - 1` overflows at once. -/
def Capped (lower : Text → Text) (r : Request) (answers : List Answer) : Prop :=
  r.followRedirects = true → r.maxRedirects.toInt < 0 → r.maxRedirects.toInt ≠ -2 ^ 63 →
    ∀ resp rest, answers = .response resp :: rest → resp.isRedirect lower = true →
      r.nextRequestFor lower resp = none

theorem send_followed (hFollow : r.followRedirects = true) (answers : List Answer) :
    send lower r answers = sendLoop lower r r.maxRedirects.toInt answers := if_pos hFollow

/-- Without following, one request is sent. -/
theorem send_single (hFollow : ¬r.followRedirects = true) (answers : List Answer) :
    (send lower r answers).sent = (r.internalSend lower).toList ∧
      ((send lower r answers).ending = .waiting → answers = []) := by
  rw [send, if_neg hFollow]
  cases r.internalSend lower with
  | none => simp
  | some s =>
    cases answers with
    | nil => simp
    | cons answer answers => cases answer <;> simp

theorem sent_secure (hLower : LowersAscii lower) (answers : List Answer) :
    (send lower r answers).Secure lower := by
  by_cases hFollow : r.followRedirects = true
  · rw [send_followed hFollow]
    exact sendLoop_secure hLower r _ answers
  · obtain ⟨hSent, -⟩ := @send_single lower r hFollow answers
    constructor
    all_goals
      rw [hSent]
      cases r.internalSend lower <;> simp

theorem bounded_iff (answers : List Answer) :
    (send lower r answers).Bounded r.maxRedirects.toInt.toNat answers ↔ Capped lower r answers := by
  by_cases hFollow : r.followRedirects = true
  · rw [send_followed hFollow]
    rcases @sendLoop_cases lower r r.maxRedirects.toInt answers with
      ⟨hSent, hEnding, hNone⟩ | ⟨s, resp, next, rest, rfl, hSend, hFollows, hSent, hEnding⟩
    · refine iff_of_true (bounded_of_single hSent hEnding) ?_
      intro _ hNegative hLeast resp rest hEq hRedirect
      refine Option.eq_none_iff_forall_ne_some.mpr fun next hNext => ?_
      exact hNone resp next rest hEq ⟨hRedirect, by omega, hLeast, hNext⟩
    · by_cases hLeft : 0 ≤ r.maxRedirects.toInt
      · refine iff_of_true (sendLoop_bounded r _ _ hLeft) fun _ hNegative => ?_
        exact absurd hNegative (by omega)
      · obtain ⟨hRedirect, -, hLeast, hNext⟩ := hFollows
        refine iff_of_false ?_ fun hCapped => ?_
        · -- The second request is sent.
          obtain ⟨-, a, b, -, hb, -⟩ := nextRequestFor_headers hNext
          have hHead := @sendLoop_head lower next (r.maxRedirects.toInt - 1) rest
          simp only [Request.internalSend, hb, Option.map_some] at hHead
          rintro ⟨hFew, -⟩
          rw [hSent, List.length_cons] at hFew
          cases hRest : (sendLoop lower next (r.maxRedirects.toInt - 1) rest).sent with
          | nil => simp [hRest] at hHead
          | cons =>
            rw [hRest, List.length_cons] at hFew
            omega
        · have hNone := hCapped hFollow (by omega) hLeast resp rest rfl hRedirect
          rw [hNone] at hNext
          cases hNext
  · obtain ⟨hSent, hEnding⟩ := @send_single lower r hFollow answers
    exact iff_of_true (bounded_of_single hSent hEnding) fun hThis => absurd hThis hFollow

/-- The credentials stay on their origin, and the loop ends within `maxRedirects` redirects if
and only if that is not negative or the first redirect leads nowhere. -/
theorem send_secure_bounded (lower : Text → Text) (hLower : LowersAscii lower) (r : Request)
    (answers : List Answer) :
    (send lower r answers).Secure lower ∧
        (send lower r answers).Bounded r.maxRedirects.toInt.toNat answers ↔
      Capped lower r answers := by
  rw [← bounded_iff]
  exact and_iff_right (sent_secure hLower answers)

/-- A request with a token, for at most so many redirects. -/
def tokenRequest (maxRedirects : Int64) : Request where
  method := "GET".toList
  url := "https://a/".toList
  headers := [("AUTHORIZATION".toList, "token".toList)]
  body := none
  insecure := false
  followRedirects := true
  maxRedirects := maxRedirects

/-- A redirect to the place. -/
def redirectTo (place : Text) : Answer := .response ⟨302, [("Location".toList, place)]⟩

theorem lowersAscii_toLower : LowersAscii (List.map Char.toLower) := fun _ _ => rfl

/-- Another origin gets no token, nor does the first one when it is back. -/
theorem send_secure_bounded_token :
    (send (List.map Char.toLower) (tokenRequest 10)
        [redirectTo "https://b/".toList, redirectTo "https://a/".toList]).Secure
      (List.map Char.toLower) ∧
    (send (List.map Char.toLower) (tokenRequest 10)
        [redirectTo "https://b/".toList, redirectTo "https://a/".toList]).sent.map
          (fun s => (s.credentials (List.map Char.toLower)).length) = [1, 0, 0] :=
  ⟨((send_secure_bounded (List.map Char.toLower) lowersAscii_toLower (tokenRequest 10)
      [redirectTo "https://b/".toList, redirectTo "https://a/".toList]).mpr
      fun _ hNegative => absurd hNegative (by decide)).1, by decide +kernel⟩

/-- A negative number of redirects does not end the loop. -/
theorem send_secure_bounded_negative :
    (send (List.map Char.toLower) (tokenRequest (-1)) (.replicate 12 (redirectTo "/".toList))
        ).sent.length = 13 ∧
      ¬(send (List.map Char.toLower) (tokenRequest (-1)) (.replicate 12 (redirectTo "/".toList))
        ).Bounded (tokenRequest (-1)).maxRedirects.toInt.toNat
          (.replicate 12 (redirectTo "/".toList)) := by
  have hMany : (send (List.map Char.toLower) (tokenRequest (-1))
      (.replicate 12 (redirectTo "/".toList))).sent.length = 13 := by decide +kernel
  refine ⟨hMany, fun hBounded => ?_⟩
  have hFew := hBounded.1
  rw [hMany] at hFew
  exact absurd hFew (by decide)

end Quoin.Http
