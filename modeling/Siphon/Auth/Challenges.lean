import Siphon.Auth.Nonce
import Siphon.Library.IndexMap
import Siphon.Library.Run

/-!
# Pending challenges

What is kept between the 401 to a REGISTER and the REGISTER that answers it, under the nonce of the
challenge; what the subscriber server would answer is an input.
-/

namespace Siphon.Auth

/-- The vector of a SIP Digest challenge: H(A1) per algorithm, most preferred first. -/
structure SipDigestVector where
  realm : Text
  hashes : List (DigestAlgorithm × Text)

structure DigestAnswer where
  username : Text
  realm : Text
  nonce : Text
  uri : Text
  response : Text
  algorithm : Option Text
  qop : Option Text
  clientNonce : Option Text
  nonceCount : Option Text

/-- A SIP Digest challenge: the vector and the REGISTER it was issued to. -/
structure SipDigestChallenge where
  vector : SipDigestVector
  publicIdentity : Text
  privateIdentity : Text
  callId : Text

structure Register where
  method : Text
  publicIdentity : Text
  userName : Text
  callId : Text
  answer : Option DigestAnswer

inductive HssAnswer where
  | sipDigest (vector : SipDigestVector)
  | aka (randAndAutn expectedResponse : Bytes)
  | refused

/-! ### Verifying an answer -/

def DigestAlgorithm.display : DigestAlgorithm → Text
  | .md5 => "MD5".toList
  | .md5Sess => "MD5-sess".toList
  | .sha256 => "SHA-256".toList
  | .sha256Sess => "SHA-256-sess".toList
  | .sha512_256 => "SHA-512-256".toList
  | .sha512_256Sess => "SHA-512-256-sess".toList
  | .akaV1Md5 => "AKAv1-MD5".toList

def DigestAlgorithm.parse [StdText] (name : Text) : Option DigestAlgorithm :=
  let normalized := (StdText.toUppercase name).map fun c => if c = '_' then '-' else c
  if normalized = "MD5".toList ∨ normalized = [] then some .md5
  else if normalized = "MD5-SESS".toList then some .md5Sess
  else if normalized = "SHA-256".toList ∨ normalized = "SHA256".toList then some .sha256
  else if normalized = "SHA-256-SESS".toList ∨ normalized = "SHA256-SESS".toList then
    some .sha256Sess
  else if normalized = "SHA-512-256".toList ∨ normalized = "SHA512-256".toList then
    some .sha512_256
  else if normalized = "SHA-512-256-SESS".toList ∨ normalized = "SHA512-256-SESS".toList then
    some .sha512_256Sess
  else if normalized = "AKAV1-MD5".toList then some .akaV1Md5
  else none

structure Exchange where
  algorithm : DigestAlgorithm
  hash : Text
  uri : Text
  nonce : Text
  nonceCount : Text
  clientNonce : Text

section

variable [StdText] [StdDigest]

def Exchange.keyed (exchange : Exchange) (a2 : Text) : Text :=
  let hashA2 := StdDigest.hashHex exchange.algorithm (Utf8.encode a2)
  let data := exchange.hash ++ ':' :: exchange.nonce ++ ':' :: exchange.nonceCount
    ++ ':' :: exchange.clientNonce ++ ":auth:".toList ++ hashA2
  StdDigest.hashHex exchange.algorithm (Utf8.encode data)

def Exchange.response (exchange : Exchange) (method : Text) : Text :=
  exchange.keyed (method ++ ':' :: exchange.uri)

def Exchange.responseAuth (exchange : Exchange) : Text :=
  exchange.keyed (':' :: exchange.uri)

structure Verified where
  nonceCount : ℕ
  authenticationInfo : Text

def SipDigestVector.check (vector : SipDigestVector) (answer : DigestAnswer) (method : Text) :
    Except String Verified := do
  if answer.realm ≠ vector.realm then
    throw "the realm is not the one of the challenge"
  let some algorithm := answer.algorithm.bind DigestAlgorithm.parse
    | throw "no algorithm the challenge offered"
  let some (_, hash) := vector.hashes.find? fun offered => offered.1 = algorithm
    | throw "no algorithm the challenge offered"
  if ¬ answer.qop.any fun qop => qop.toAsciiLowercase = "auth".toList then
    throw "qop is not auth"
  let some clientNonce := answer.clientNonce.filter fun clientNonce => clientNonce ≠ []
    | throw "no cnonce"
  let some countText := answer.nonceCount
    | throw "no nc"
  let some nonceCount := (parseHex (2 ^ 32) countText).filter fun count => count > 0
    | throw "nc is not a positive hexadecimal count"
  let exchange : Exchange :=
    { algorithm, hash, uri := answer.uri, nonce := answer.nonce, nonceCount := countText,
      clientNonce }
  let expected := exchange.response method
  if ¬ constantTimeEq (Utf8.encode expected) (Utf8.encode answer.response.toAsciiLowercase) then
    throw "the response does not match"
  return {
    nonceCount
    authenticationInfo := "qop=auth, rspauth=\"".toList ++ exchange.responseAuth
      ++ "\", cnonce=\"".toList ++ clientNonce ++ "\", nc=".toList ++ countText }

/-- One WWW-Authenticate value per algorithm. -/
def SipDigestVector.challenges (vector : SipDigestVector) (nonce : Text) (stale : Bool) :
    List Text :=
  vector.hashes.map fun offered =>
    "Digest realm=\"".toList ++ vector.realm ++ "\", nonce=\"".toList ++ nonce
      ++ "\", algorithm=".toList ++ offered.1.display ++ ", qop=\"auth\"".toList
      ++ if stale then ", stale=true".toList else []

end

/-! ### The store -/

structure ImsAuthVector where
  expectedResponse : Bytes
  storedAt : ℕ

/-- A SIP Digest challenge and how far its nonce has been used. -/
structure SipDigestEntry where
  challenge : SipDigestChallenge
  /-- The last nonce count that verified, 0 before the first. -/
  lastNonceCount : ℕ
  validUntil : ℕ

inductive Pending where
  | aka (vector : ImsAuthVector)
  | sipDigest (entry : SipDigestEntry)

/-- How long a challenge waits for its answer, in nanoseconds. -/
def authVectorTtl : ℕ := 120 * 10 ^ 9

def authVectorPruneEvery : ℕ := 64

def Pending.isLive (now : ℕ) : Pending → Bool
  | .aka vector => now - vector.storedAt < authVectorTtl
  | .sipDigest entry => now < entry.validUntil

inductive NonceCount where
  | accepted
  | replayed
  | unknown
deriving DecidableEq

/-- The pending challenges by nonce, and how many were ever stored. -/
structure AuthVectorStore where
  vectors : IndexMap Text Pending := .empty
  inserts : ℕ := 0

namespace AuthVectorStore

variable (store : AuthVectorStore) (now : ℕ) (nonce : Text)

def insertPending (pending : Pending) : AuthVectorStore :=
  let vectors :=
    if store.inserts % authVectorPruneEvery = 0 then store.vectors.retain (Pending.isLive now)
    else store.vectors
  { vectors := vectors.insert nonce pending, inserts := store.inserts + 1 }

def insert (expectedResponse : Bytes) : AuthVectorStore :=
  store.insertPending now nonce (.aka { expectedResponse, storedAt := now })

def insertDigest (challenge : SipDigestChallenge) : AuthVectorStore :=
  store.insertPending now nonce
    (.sipDigest { challenge, lastNonceCount := 0, validUntil := now + authVectorTtl })

/-- Consume the AKA vector under a nonce. -/
def take : AuthVectorStore × Option ImsAuthVector :=
  match store.vectors.get? nonce with
  | some (.aka vector) =>
    ({ store with vectors := store.vectors.shiftRemove nonce },
      if now - vector.storedAt < authVectorTtl then some vector else none)
  | _ => (store, none)

/-- The live SIP Digest challenge under a nonce, and whether it was answered before. -/
def digest : Option (SipDigestChallenge × Bool) :=
  match store.vectors.get? nonce with
  | some (.sipDigest entry) =>
    if (Pending.sipDigest entry).isLive now then some (entry.challenge, entry.lastNonceCount > 0)
    else none
  | _ => none

def recordNonceCount (count lifetime : ℕ) :
    AuthVectorStore × NonceCount :=
  match store.vectors.get? nonce with
  | none => (store, .unknown)
  | some pending =>
    if ¬ pending.isLive now then (store, .unknown)
    else
      match pending with
      | .sipDigest entry =>
        if count > entry.lastNonceCount then
          let entry := { entry with lastNonceCount := count, validUntil := now + lifetime }
          ({ store with vectors := store.vectors.insert nonce (.sipDigest entry) }, .accepted)
        else (store, .replayed)
      | .aka _ => (store, .unknown)

def forget : AuthVectorStore :=
  { store with vectors := store.vectors.shiftRemove nonce }

end AuthVectorStore

/-! ### The flow of a REGISTER -/

/-- The clock as the accesses of the store read it, in nanoseconds. -/
structure StoreClock where
  digest : ℕ
  record : ℕ
  insert : ℕ

inductive DigestEvent where
  /-- It is authenticated. -/
  | accepted (nonce : Text) (count : ℕ) (authUser authenticationInfo : Text)
  /-- 403: it answers the challenge of its nonce, and wrongly. -/
  | failed (nonce : Text) (reason : String)
  /-- 403, with nothing changed. -/
  | refused
  /-- 401, with a SIP Digest challenge. -/
  | challenged (source : NonceSource) (challenge : SipDigestChallenge) (values : List Text)
  /-- 401, with an AKA challenge. -/
  | challengedAka (nonce : Text)

/-- What comes in: a REGISTER for SIP Digest, with the clocks and the random number of its nonce and
what the subscriber server would answer; and what the AKA side does to the store. -/
inductive DigestInput where
  | register (clock : StoreClock) (source : NonceSource) (register : Register) (hss : HssAnswer)
  | challengeAka (now : ℕ) (randAndAutn expectedResponse : Bytes)
  | takeAka (now : ℕ) (nonce : Text)
  | resync (nonce : Text)

section

variable [StdText] [StdDigest] (auth : NonceConfig) (nonceLifetime : ℕ)
  (store : AuthVectorStore)

variable (clock : StoreClock) (source : NonceSource) (register : Register)

def challengeSipDigest (vector : SipDigestVector) (stale : Bool) :
    AuthVectorStore × List DigestEvent :=
  let nonce := generateNonce auth source
  let values := vector.challenges nonce stale
  let challenge :=
    { vector, publicIdentity := register.publicIdentity, privateIdentity := register.userName,
      callId := register.callId }
  (store.insertDigest clock.insert nonce challenge, [.challenged source challenge values])

def challengeWith (now : ℕ) (randAndAutn expectedResponse : Bytes) :
    AuthVectorStore × List DigestEvent :=
  let nonce := base64Encode randAndAutn
  (store.insert now nonce expectedResponse, [.challengedAka nonce])

def answerToChallenge (challenge : SipDigestChallenge) (answeredBefore : Bool)
    (answer : DigestAnswer) : AuthVectorStore × List DigestEvent :=
  let outcome : Except String Verified :=
    if ¬ answeredBefore ∧ challenge.callId ≠ register.callId then
      .error "the Call-ID is not the one of the challenged REGISTER"
    else if answer.username ≠ challenge.privateIdentity then
      .error "the username is not the private identity that was challenged"
    else challenge.vector.check answer register.method
  match outcome with
  | .error reason => (store.forget answer.nonce, [.failed answer.nonce reason])
  | .ok verified =>
    match store.recordNonceCount clock.record answer.nonce verified.nonceCount nonceLifetime with
    | (store, .accepted) =>
      (store,
        [.accepted answer.nonce verified.nonceCount answer.username verified.authenticationInfo])
    -- A replayed or unknown count is challenged anew: the client has shown that it knows the
    -- password.
    | (store, _) => challengeSipDigest auth store clock source register challenge.vector true

/-- Ask the subscriber server and challenge.  An answer under a nonce that is not valid has to
verify for the challenge to be a stale one. -/
def askAndChallenge (hss : HssAnswer) : AuthVectorStore × List DigestEvent :=
  match hss with
  | .sipDigest vector =>
    match register.answer with
    | none => challengeSipDigest auth store clock source register vector false
    | some answer =>
      if answer.username = register.userName ∧ (vector.check answer register.method).isOk then
        challengeSipDigest auth store clock source register vector true
      else (store, [.refused])
  | .aka randAndAutn expectedResponse =>
    challengeWith store clock.insert randAndAutn expectedResponse
  | .refused => (store, [.refused])

def sipDigestFlow (hss : HssAnswer) : AuthVectorStore × List DigestEvent :=
  let pending := do
    let answer ← register.answer
    let (challenge, answeredBefore) ← store.digest clock.digest answer.nonce
    -- A nonce issued for another public identity is no nonce for this one.
    if challenge.publicIdentity = register.publicIdentity then
      some (answer, challenge, answeredBefore)
    else none
  match pending with
  | some (answer, challenge, answeredBefore) =>
    answerToChallenge auth nonceLifetime store clock source register challenge answeredBefore
      answer
  | none => askAndChallenge auth store clock source register hss

/-- The store of challenges under REGISTERs of any kind. -/
def challengeMachine : Machine AuthVectorStore DigestInput DigestEvent where
  step store
    | .register clock source register hss =>
      sipDigestFlow auth nonceLifetime store clock source register hss
    | .challengeAka now randAndAutn expectedResponse =>
      challengeWith store now randAndAutn expectedResponse
    | .takeAka now nonce => ((store.take now nonce).1, [])
    | .resync nonce => (store.forget nonce, [])

end

end Siphon.Auth
