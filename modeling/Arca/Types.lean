import Arca.Lib.Text
import Arca.Time

/-!
# Credentials, users and S3 errors
-/
namespace Arca

structure Credential where
  accessKeyId : String
  secretAccessKey : String
  description : String
  createdAt : Instant
  active : Bool
  userId : String
  deriving DecidableEq, Repr

structure User where
  userId : String
  username : String
  description : String
  isRoot : Bool
  createdAt : Instant
  deriving DecidableEq, Repr

inductive S3ErrorCode where
  | accessDenied
  | entityTooSmall
  | internalError
  | invalidAccessKeyId
  | invalidArgument
  | invalidBucketName
  | invalidBucketState
  | invalidPart
  | invalidRequest
  | invalidRetentionPeriod
  | malformedXML
  | noSuchBucket
  | noSuchKey
  | noSuchUpload
  | preconditionFailed
  | signatureDoesNotMatch
  deriving DecidableEq, Repr

def S3ErrorCode.defaultMessage : S3ErrorCode → Text
  | accessDenied => "Access Denied".toList
  | entityTooSmall =>
    "Your proposed upload is smaller than the minimum allowed object size.".toList
  | internalError => "We encountered an internal error. Please try again.".toList
  | invalidAccessKeyId =>
    "The AWS access key ID you provided does not exist in our records.".toList
  | invalidArgument => "Invalid Argument".toList
  | invalidBucketName => "The specified bucket is not valid.".toList
  | invalidBucketState => "The request is not valid for the current state of the bucket.".toList
  | invalidPart => "One or more of the specified parts could not be found.".toList
  | invalidRequest => "Invalid Request".toList
  | invalidRetentionPeriod => "The retention period specified is not valid.".toList
  | malformedXML => ("The XML you provided was not well-formed or did not validate against " ++
      "our published schema.").toList
  | noSuchBucket => "The specified bucket does not exist.".toList
  | noSuchKey => "The specified key does not exist.".toList
  | noSuchUpload => "The specified multipart upload does not exist.".toList
  | preconditionFailed => "At least one of the pre-conditions you specified did not hold.".toList
  | signatureDoesNotMatch =>
    "The request signature we calculated does not match the signature you provided.".toList

structure S3Error where
  code : S3ErrorCode
  message : Text
  resource : Text
  deriving DecidableEq, Repr

def S3Error.new (code : S3ErrorCode) (resource : Text) : S3Error :=
  ⟨code, code.defaultMessage, resource⟩

def S3Error.withMessage (code : S3ErrorCode) (message : String) (resource : Text) : S3Error :=
  ⟨code, message.toList, resource⟩

lemma bind_eq_ok {ε α β : Type} {x : Except ε α} {f : α → Except ε β} {b : β}
    (h : x >>= f = .ok b) : ∃ a, x = .ok a ∧ f a = .ok b := by
  cases x with
  | error => cases h
  | ok a => exact ⟨a, rfl, h⟩

end Arca
