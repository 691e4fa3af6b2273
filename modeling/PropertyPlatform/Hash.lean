import PropertyPlatform.Validators

/-!
# Fingerprints and signatures
-/

namespace PropertyPlatform

open Js

variable (P : Platform)

/-- The four parts that define "the same enquiry". -/
structure Content where
  email : String
  phone : String
  propertyId : ℕ
  message : String
  deriving DecidableEq

/-- The normalized parts; a missing phone counts as the empty text. -/
def normalize (email : String) (phone : Option String) (propertyId : ℕ) (message : String) :
    Content where
  email := P.toLowerCase (trim email)
  phone := digitsOnly (phone.getD "")
  propertyId := propertyId
  message := collapseWhiteSpace (P.toLowerCase (trim message))

/-- `[email, phone, String(propertyId), message].join('|')`. -/
def Content.joined (c : Content) : String :=
  c.email ++ "|" ++ c.phone ++ "|" ++ natToString c.propertyId ++ "|" ++ c.message

def fingerprintEnquiry (email : String) (phone : Option String) (propertyId : ℕ)
    (message : String) : String :=
  P.sha256 (normalize P email phone propertyId message).joined

/-- What the guarantee about duplicates takes from the runtime: no collision of SHA-256
matters, and neither a valid address nor lower-casing brings in the separator. -/
structure Platform.Separates : Prop where
  sha256_injective : Function.Injective P.sha256
  email : ∀ s, P.emailFormat s = true → '|' ∉ s.toList
  lowerCase : ∀ s, '|' ∉ s.toList → '|' ∉ (P.toLowerCase s).toList

/-- The parts before the message contain no separator, and the id is one `String` prints. -/
structure Content.Separable (c : Content) : Prop where
  email : '|' ∉ c.email.toList
  phone : '|' ∉ c.phone.toList
  propertyId : 0 < c.propertyId

theorem Content.toList_joined (c : Content) : c.joined.toList =
    c.email.toList ++ '|' :: (c.phone.toList ++ '|' ::
      ((natToString c.propertyId).toList ++ '|' :: c.message.toList)) := by
  simp [Content.joined, String.toList_append]

/-- Joining with a separator loses nothing, although messages may contain it. -/
theorem Content.joined_injective {c d : Content} (hc : c.Separable) (hd : d.Separable)
    (h : c.joined = d.joined) : c = d := by
  have hid : ∀ {n : ℕ}, 0 < n → '|' ∉ (natToString n).toList := by
    intro n hn hmem
    rcases natToString_chars hn '|' hmem with hdigit | hother
    · exact absurd hdigit (by decide)
    · exact absurd hother (by decide)
  have hl := congrArg String.toList h
  rw [Content.toList_joined, Content.toList_joined] at hl
  obtain ⟨hemail, hl⟩ := append_separator_inj hc.email hd.email hl
  obtain ⟨hphone, hl⟩ := append_separator_inj hc.phone hd.phone hl
  obtain ⟨hproperty, hmessage⟩ :=
    append_separator_inj (hid hc.propertyId) (hid hd.propertyId) hl
  obtain ⟨_, _, _, _⟩ := c
  obtain ⟨_, _, _, _⟩ := d
  simp only [Content.mk.injEq]
  exact ⟨String.toList_inj.mp hemail, String.toList_inj.mp hphone,
    natToString_injective hc.propertyId hd.propertyId (String.toList_inj.mp hproperty),
    String.toList_inj.mp hmessage⟩

def CreateEnquiryInput.content {P : Platform} (input : CreateEnquiryInput P) : Content :=
  normalize P input.email input.phone input.propertyId input.message

variable {P} in
theorem Platform.Separates.content (h : P.Separates) (input : CreateEnquiryInput P) :
    input.content.Separable where
  email := h.lowerCase _ fun hmem => h.email _ input.email_valid.1 (mem_trim hmem)
  phone := by
    intro hmem
    simp only [CreateEnquiryInput.content, normalize, digitsOnly, String.toList_ofList,
      List.mem_filter] at hmem
    exact absurd hmem.2 (by decide)
  propertyId := input.propertyId_pos

variable {P} in
/-- Equal fingerprints mean equal content. -/
theorem Platform.Separates.content_eq (h : P.Separates) {input input' : CreateEnquiryInput P}
    (heq : P.sha256 input.content.joined = P.sha256 input'.content.joined) :
    input.content = input'.content :=
  Content.joined_injective (h.content input) (h.content input') (h.sha256_injective heq)

variable {P} in
/-- Fingerprints tell accepted inputs apart exactly by their normalized parts. -/
theorem fingerprintEnquiry_eq_iff (h : P.Separates) (x y : CreateEnquiryInput P) :
    fingerprintEnquiry P x.email x.phone x.propertyId x.message =
        fingerprintEnquiry P y.email y.phone y.propertyId y.message ↔
      P.toLowerCase (trim x.email) = P.toLowerCase (trim y.email) ∧
        digitsOnly (x.phone.getD "") = digitsOnly (y.phone.getD "") ∧
        x.propertyId = y.propertyId ∧
        collapseWhiteSpace (P.toLowerCase (trim x.message)) =
          collapseWhiteSpace (P.toLowerCase (trim y.message)) := by
  constructor
  · intro heq
    have hcontent : x.content = y.content := h.content_eq heq
    exact Content.mk.inj hcontent
  · rintro ⟨hemail, hphone, hproperty, hmessage⟩
    unfold fingerprintEnquiry normalize
    rw [hemail, hphone, hproperty, hmessage]

theorem toLower_separator {c : Char} (h : c.toLower = '|') : c = '|' := by
  unfold Char.toLower at h
  split_ifs at h with hu
  · have hval := congrArg (fun x => x.val.toNat) h
    have h1 := UInt32.le_iff_toNat_le.mp hu.1
    have h2 := UInt32.le_iff_toNat_le.mp hu.2
    simp at h1 h2 hval
    omega
  · exact h

theorem Platform.separates_sample : Platform.sample.Separates where
  sha256_injective := by
    intro s t h
    simp only [Platform.sample] at h
    split_ifs at h with hs ht ht
    · rw [hs, ht]
    · exact absurd (congrArg (fun x => x.toList.head?) h) (by simp)
    · exact absurd (congrArg (fun x => x.toList.head?) h) (by simp)
    · exact (String.append_right_inj _).mp h
  email := by
    intro s h
    simp only [Platform.sample, Bool.and_eq_true, Bool.not_eq_true'] at h
    simpa using h.2
  lowerCase := by
    intro s h hmem
    simp only [Platform.sample, String.toList_ofList, List.mem_map] at hmem
    obtain ⟨c, hc, hlower⟩ := hmem
    rw [toLower_separator hlower] at hc
    exact h hc

theorem sampleName_length : 2 ≤ utf16Length "Jane Doe" ∧ utf16Length "Jane Doe" ≤ 120 := by decide

theorem sampleEmail_valid : Platform.sample.emailFormat "jane@example.com" = true ∧
    utf16Length "jane@example.com" ≤ 254 := by decide

def mixedCaseInput : CreateEnquiryInput .sample where
  fullName := "Jane Doe"
  email := "Jane@Example.com"
  phone := some "+91 98765 43210"
  propertyId := 1
  message := "Hello there | today"
  source := .website
  fullName_length := sampleName_length
  email_valid := by decide
  phone_valid := by decide
  propertyId_pos := Nat.one_pos
  message_length := by decide

def lowerCaseInput : CreateEnquiryInput .sample where
  fullName := "J. Doe"
  email := "jane@example.com"
  phone := some "919876543210"
  propertyId := 1
  message := "hello   there | TODAY"
  source := .website
  fullName_length := by decide
  email_valid := sampleEmail_valid
  phone_valid := by decide
  propertyId_pos := Nat.one_pos
  message_length := by decide

/-- Casing, spacing and the layout of the phone number make no difference. -/
theorem fingerprintEnquiry_eq_sample :
    fingerprintEnquiry .sample mixedCaseInput.email mixedCaseInput.phone mixedCaseInput.propertyId
        mixedCaseInput.message =
      fingerprintEnquiry .sample lowerCaseInput.email lowerCaseInput.phone
        lowerCaseInput.propertyId lowerCaseInput.message := by
  rw [fingerprintEnquiry_eq_iff Platform.separates_sample mixedCaseInput lowerCaseInput]
  decide +kernel

def verifyHmacSignature (payload secret signature : String) : Bool :=
  let expected := encodeHex (P.hmacSha256 secret payload).val
  let expectedBuf := decodeHex expected
  let signatureBuf := decodeHex (withoutPrefix "sha256=" signature).toList
  if expectedBuf.length ≠ signatureBuf.length then false else expectedBuf == signatureBuf

/-- The signature check is equality of the decoded header with the HMAC. -/
theorem verifyHmacSignature_iff (payload secret signature : String) :
    verifyHmacSignature P payload secret signature = true ↔
      decodeHex (withoutPrefix "sha256=" signature).toList = (P.hmacSha256 secret payload).val := by
  simp only [verifyHmacSignature, decodeHex_encodeHex]
  split_ifs with h
  · simp only [false_iff]
    exact fun he => h (by rw [he])
  · rw [beq_iff_eq, eq_comm]

end PropertyPlatform
