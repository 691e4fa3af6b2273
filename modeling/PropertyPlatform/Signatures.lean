import PropertyPlatform.Js.Utf8
import PropertyPlatform.Statuses

/-!
# What the signature check accepts

The body arrives as bytes and is kept as text, and the HMAC is computed from the bytes of this
text. The header loses an optional prefix and is then decoded as far as it is hexadecimal. The
check is exact where neither step loses anything.
-/

namespace PropertyPlatform

open Js

/-- HMAC-SHA256 of bytes, for each secret. -/
abbrev Hmac := String → List UInt8 → { bytes : List UInt8 // bytes.length = 32 }

/-- The runtime in which `update(text)` hashes the UTF-8 of the text. -/
def Platform.ofHmac (P : Platform) (hmac : Hmac) : Platform :=
  { P with hmacSha256 := fun secret text => hmac secret (encodeUtf8 text.toList) }

section Check

variable (P : Platform)

/-- `crypto.timingSafeEqual`. -/
def timingSafeEqual (a b : List UInt8) : Except NativeError Bool :=
  if a.length = b.length then .ok (a == b)
  else .error ⟨"Input buffers must have the same byte length", none,
    some "ERR_CRYPTO_TIMING_SAFE_EQUAL_LENGTH"⟩

/-- What is left of a header without its prefix. -/
def signatureDigits (signature : String) : List Char := (withoutPrefix "sha256=" signature).toList

/-- `verifyHmacSignature`, which could throw in its last step. -/
def checkHmacSignature (payload secret signature : String) : Except NativeError Bool :=
  let expectedBuf := decodeHex (encodeHex (P.hmacSha256 secret payload).val)
  let signatureBuf := decodeHex (signatureDigits signature)
  if expectedBuf.length ≠ signatureBuf.length then .ok false
  else timingSafeEqual expectedBuf signatureBuf

/-- `verifyWebhookSignature`, likewise. -/
def checkWebhookSignature (rawBody : String) : Option String → Except NativeError Bool
  | none => .ok false
  | some signatureHeader =>
    if signatureHeader = "" then .ok false
    else checkHmacSignature P rawBody P.crmWebhookSecret signatureHeader

variable {P}

/-- Buffers of different lengths never reach the comparison. -/
theorem checkHmacSignature_eq (payload secret signature : String) :
    checkHmacSignature P payload secret signature =
      .ok (verifyHmacSignature P payload secret signature) := by
  unfold checkHmacSignature verifyHmacSignature timingSafeEqual signatureDigits
  simp only
  split_ifs with hne heq
  · rfl
  · rfl
  · exact absurd (not_not.mp hne) heq

theorem checkWebhookSignature_eq (rawBody : String) (header : Option String) :
    checkWebhookSignature P rawBody header = .ok (verifyWebhookSignature P rawBody header) := by
  cases header with
  | none => rfl
  | some signatureHeader =>
    simp only [checkWebhookSignature, verifyWebhookSignature]
    split_ifs
    · rfl
    · exact checkHmacSignature_eq _ _ _

/-- The empty header is no exception: nothing is decoded from it. -/
theorem verifyWebhookSignature_iff (rawBody header : String) :
    verifyWebhookSignature P rawBody (some header) = true ↔
      decodeHex (signatureDigits header) = (P.hmacSha256 P.crmWebhookSecret rawBody).val := by
  unfold verifyWebhookSignature
  simp only
  split_ifs with hempty
  · have hlength := (P.hmacSha256 P.crmWebhookSecret rawBody).2
    refine iff_of_false not_false fun heq => ?_
    rw [← heq, hempty] at hlength
    exact absurd hlength (by decide)
  · exact verifyHmacSignature_iff P rawBody P.crmWebhookSecret header

end Check

section Header

variable {mac : List UInt8} {header : String}

/-- An optional prefix, then sixty-four hexadecimal digits that spell the bytes. -/
def SpellsMac (mac : List UInt8) (header : String) : Prop :=
  ∃ digits : List Char, digits.length = 64 ∧ (∀ c ∈ digits, (hexValue c).isSome = true) ∧
    decodeHex digits = mac ∧
    (header.toList = digits ∨ header.toList = "sha256=".toList ++ digits)

theorem signatureDigits_of_start {digits : List Char}
    (h : header.toList = "sha256=".toList ++ digits) : signatureDigits header = digits := by
  unfold signatureDigits withoutPrefix
  rw [if_pos (by rw [h, List.isPrefixOf_iff_prefix]; exact List.prefix_append _ _), h]
  simp

theorem toList_cases (header : String) : header.toList = signatureDigits header ∨
    header.toList = "sha256=".toList ++ signatureDigits header := by
  by_cases hprefix : "sha256=".toList.isPrefixOf header.toList = true
  · obtain ⟨digits, hdigits⟩ := List.isPrefixOf_iff_prefix.mp hprefix
    rw [signatureDigits_of_start hdigits.symm]
    exact Or.inr hdigits.symm
  · unfold signatureDigits withoutPrefix
    rw [if_neg hprefix]
    exact Or.inl rfl

/-- The letter `s` of the prefix is no digit, so there is one way to read a header. -/
theorem spellsMac_iff : SpellsMac mac header ↔
    (signatureDigits header).length = 64 ∧
      (∀ c ∈ signatureDigits header, (hexValue c).isSome = true) ∧
      decodeHex (signatureDigits header) = mac := by
  constructor
  · rintro ⟨digits, hlength, hhex, hmac, hheader | hheader⟩
    · rcases toList_cases header with hplain | hprefixed
      · rw [← hplain, hheader]
        exact ⟨hlength, hhex, hmac⟩
      · have hs : 's' ∈ digits := by
          rw [← hheader, hprefixed]
          simp
        exact absurd (hhex 's' hs) (by decide)
    · rw [signatureDigits_of_start hheader]
      exact ⟨hlength, hhex, hmac⟩
  · rintro ⟨hlength, hhex, hmac⟩
    exact ⟨_, hlength, hhex, hmac, toList_cases header⟩

/-- Of the headers that are decoded to the bytes, those that spell them have nothing more. -/
theorem spellsMac_iff_length (hmac : mac.length = 32) : SpellsMac mac header ↔
    decodeHex (signatureDigits header) = mac ∧ (signatureDigits header).length = 64 := by
  rw [spellsMac_iff]
  constructor
  · rintro ⟨hlength, -, hdecoded⟩
    exact ⟨hdecoded, hlength⟩
  · rintro ⟨hdecoded, hlength⟩
    refine ⟨hlength, isHex_of_length ?_, hdecoded⟩
    rw [hlength, hdecoded, hmac]

end Header

section Bytes

variable {P : Platform} {hmac : Hmac} {req : Request} {body : CrmWebhookBody}
variable {bytes : List UInt8} {header : String}

/-- What the `verify` hook of `express.json` keeps of the body. -/
def rawBodyText (bytes : List UInt8) : String := String.ofList (decodeUtf8 bytes)

/-- The request came with these bytes. -/
def Request.Received (req : Request) (bytes : List UInt8) : Prop :=
  req.payload.map (fun payload => payload.1.val) =
    if rawBodyText bytes = "" then none else some (rawBodyText bytes)

/-- The bytes the HMAC is computed of; an empty text is replaced by the accepted body. -/
def signedBytes (bytes : List UInt8) (body : CrmWebhookBody) : List UInt8 :=
  encodeUtf8 (if bytes = [] then body.toValue.text else decodeUtf8 bytes)

/-- The check gives an answer, and it is whether the header spells the HMAC of the bytes. -/
structure SignatureExact (P : Platform) (mac : List UInt8) (req : Request)
    (body : CrmWebhookBody) (header : String) : Prop where
  total : ∃ valid, checkWebhookSignature P (req.rawBody body) (some header) = .ok valid
  exact : checkWebhookSignature P (req.rawBody body) (some header) = .ok true ↔
    SpellsMac mac header

/-- Bytes of a text whose header has nothing after the digits, or else a header that spells
neither of the HMACs that are mixed up. -/
structure Unmistakable (hmac : Hmac) (secret : String) (bytes : List UInt8)
    (body : CrmWebhookBody) (header : String) : Prop where
  text : bytes ≠ [] ∧ ValidUtf8 bytes →
    decodeHex (signatureDigits header) = (hmac secret bytes).val →
      (signatureDigits header).length = 64
  other : ¬ (bytes ≠ [] ∧ ValidUtf8 bytes) → ¬ SpellsMac (hmac secret bytes).val header ∧
    decodeHex (signatureDigits header) ≠ (hmac secret (signedBytes bytes body)).val

theorem rawBodyText_eq_empty : rawBodyText bytes = "" ↔ bytes = [] := by
  rw [rawBodyText, ← decodeUtf8_eq_nil]
  constructor
  · intro h
    simpa using congrArg String.toList h
  · intro h
    rw [h]

theorem Request.Received.rawBody (h : req.Received bytes) :
    encodeUtf8 (req.rawBody body).toList = signedBytes bytes body := by
  unfold Received at h
  simp only [rawBodyText_eq_empty] at h
  unfold Request.rawBody signedBytes
  cases hpayload : req.payload with
  | none =>
    rw [hpayload, Option.map_none] at h
    split_ifs at h with hempty
    rw [if_pos hempty]
    simp [Value.stringify]
  | some payload =>
    rw [hpayload, Option.map_some] at h
    split_ifs at h with hempty
    rw [if_neg hempty]
    simp [Option.some.inj h, rawBodyText]

/-- The accepted body is an object, so its text is not empty. -/
theorem signedBytes_eq_iff : signedBytes bytes body = bytes ↔ bytes ≠ [] ∧ ValidUtf8 bytes := by
  unfold signedBytes
  split_ifs with hempty
  · refine iff_of_false (fun h => ?_) fun h => h.1 hempty
    have htext := congrArg decodeUtf8 (h.trans hempty)
    rw [decodeUtf8_encodeUtf8] at htext
    simp [CrmWebhookBody.toValue, Value.object, Value.text, decodeUtf8, decodeFrom] at htext
  · rw [encodeUtf8_decodeUtf8, and_iff_right hempty]

/-- The check is exact but for two kinds of input: digits followed by more text, and bytes that
are not the text they are decoded to. -/
theorem signatureExact_iff (hreceived : req.Received bytes)
    (hcollision : hmac P.crmWebhookSecret bytes = hmac P.crmWebhookSecret (signedBytes bytes body) →
      bytes = signedBytes bytes body) :
    SignatureExact (P.ofHmac hmac) (hmac P.crmWebhookSecret bytes).val req body header ↔
      Unmistakable hmac P.crmWebhookSecret bytes body header := by
  have hcheck : checkWebhookSignature (P.ofHmac hmac) (req.rawBody body) (some header) =
      .ok true ↔ decodeHex (signatureDigits header) =
        (hmac P.crmWebhookSecret (signedBytes bytes body)).val := by
    rw [checkWebhookSignature_eq, Except.ok.injEq, verifyWebhookSignature_iff, ← hreceived.rawBody]
    rfl
  have hspells : SpellsMac (hmac P.crmWebhookSecret bytes).val header ↔
      decodeHex (signatureDigits header) = (hmac P.crmWebhookSecret bytes).val ∧
        (signatureDigits header).length = 64 :=
    spellsMac_iff_length (hmac P.crmWebhookSecret bytes).2
  constructor
  · rintro ⟨-, hexact⟩
    rw [hcheck] at hexact
    constructor
    · intro htext hdecoded
      rw [signedBytes_eq_iff.mpr htext, hspells] at hexact
      exact (hexact.mp hdecoded).2
    · intro hother
      have hne : bytes ≠ signedBytes bytes body := fun h => hother (signedBytes_eq_iff.mp h.symm)
      -- the two HMACs differ, so the header cannot agree with both
      have hfalse : ¬ SpellsMac (hmac P.crmWebhookSecret bytes).val header := fun hs =>
        hne (hcollision (Subtype.ext ((hspells.mp hs).1.symm.trans (hexact.mpr hs))))
      exact ⟨hfalse, fun hdecoded => hfalse (hexact.mp hdecoded)⟩
  · intro h
    refine ⟨⟨_, checkWebhookSignature_eq _ _⟩, ?_⟩
    rw [hcheck]
    by_cases htext : bytes ≠ [] ∧ ValidUtf8 bytes
    · rw [signedBytes_eq_iff.mpr htext, hspells]
      exact ⟨fun hdecoded => ⟨hdecoded, h.text htext hdecoded⟩, fun hs => hs.1⟩
    · obtain ⟨hspell, hdecoded⟩ := h.other htext
      exact iff_of_false hdecoded hspell

end Bytes

section Samples

def sampleBytes : List UInt8 := encodeUtf8 Platform.sampleWebhookText.toList

/-- An HMAC that agrees with the real one on the sample webhook. -/
def sampleHmac : Hmac := fun _ bytes =>
  if bytes = sampleBytes then ⟨Platform.sampleWebhookMac, Platform.length_sampleWebhookMac⟩
  else ⟨List.replicate 32 0, Platform.length_zeros⟩

theorem text_sampleBytes : sampleBytes ≠ [] ∧ ValidUtf8 sampleBytes := by
  refine ⟨?_, _, rfl⟩
  rw [sampleBytes, ne_eq, ← decodeUtf8_eq_nil, decodeUtf8_encodeUtf8]
  decide

theorem received_sampleBytes (signature : Option String) :
    (sampleWebhook signature).Received sampleBytes := by
  have htext : rawBodyText sampleBytes = Platform.sampleWebhookText := by
    rw [rawBodyText, sampleBytes, decodeUtf8_encodeUtf8, String.ofList_toList]
  rw [Request.Received, htext]
  rfl

theorem signedBytes_sampleBytes : signedBytes sampleBytes sampleFields = sampleBytes :=
  signedBytes_eq_iff.mpr text_sampleBytes

theorem sampleHmac_sampleBytes (secret : String) :
    (sampleHmac secret sampleBytes).val = Platform.sampleWebhookMac := by
  rw [sampleHmac, if_pos rfl]

/-- The genuine header is accepted, and rightly so. -/
theorem signatureExact_sample : SignatureExact (Platform.sample.ofHmac sampleHmac)
    (sampleHmac Platform.sample.crmWebhookSecret sampleBytes).val
    (sampleWebhook (some genuineSignature)) sampleFields genuineSignature := by
  refine (signatureExact_iff (received_sampleBytes _) fun _ => signedBytes_sampleBytes.symm).mpr ?_
  exact ⟨fun _ _ => by rfl, fun hother => absurd text_sampleBytes hother⟩

def paddedSignature : String := genuineSignature ++ "0"

/-- A sixty-fifth digit is accepted as well. -/
theorem not_signatureExact : ¬ ∀ (P : Platform) (hmac : Hmac) (req : Request)
    (body : CrmWebhookBody) (bytes : List UInt8) (header : String), req.Received bytes →
      (hmac P.crmWebhookSecret bytes = hmac P.crmWebhookSecret (signedBytes bytes body) →
        bytes = signedBytes bytes body) →
      SignatureExact (P.ofHmac hmac) (hmac P.crmWebhookSecret bytes).val req body header := by
  intro hclaim
  have hsample := hclaim .sample sampleHmac (sampleWebhook (some paddedSignature)) sampleFields
    sampleBytes paddedSignature (received_sampleBytes _) fun _ => signedBytes_sampleBytes.symm
  have hexact := hsample.exact
  have hdecoded : decodeHex (signatureDigits paddedSignature) = Platform.sampleWebhookMac := by
    decide +kernel
  have hchecked : checkWebhookSignature (Platform.sample.ofHmac sampleHmac)
      ((sampleWebhook (some paddedSignature)).rawBody sampleFields) (some paddedSignature) =
        .ok true := by
    rw [checkWebhookSignature_eq, Except.ok.injEq, verifyWebhookSignature_iff, hdecoded]
    exact (sampleHmac_sampleBytes Platform.sample.crmWebhookSecret).symm
  have hlength := ((spellsMac_iff_length (sampleHmac _ sampleBytes).2).mp (hexact.mp hchecked)).2
  exact absurd hlength (by decide +kernel)

end Samples

end PropertyPlatform
