import Arca.Auth.Middleware

/-!
# Dispatch in the bucket and object handlers

S3 puts many operations on one method and path, told apart by the query and by one
header. Some handlers look at the decoded keys of the query, others at its text as
it was sent: at its beginning, or at any place in it.
-/
namespace Arca.Handlers
open Auth Http

inductive BucketConfig where
  | encryption
  | compression
  | versioning
  | tagging
  | replication
  | lifecycle
  | objectLock
  | notification
  deriving DecidableEq, Repr

def BucketConfig.name : BucketConfig → Text
  | encryption => "encryption".toList
  | compression => "compression".toList
  | versioning => "versioning".toList
  | tagging => "tagging".toList
  | replication => "replication".toList
  | lifecycle => "lifecycle".toList
  | objectLock => "object-lock".toList
  | notification => "notification".toList

inductive ObjectConfig where
  | tagging
  | retention
  | legalHold
  deriving DecidableEq, Repr

def ObjectConfig.name : ObjectConfig → Text
  | tagging => "tagging".toList
  | retention => "retention".toList
  | legalHold => "legal-hold".toList

inductive Operation where
  | listBuckets
  | headBucket
  | createBucket
  | deleteBucket
  | deleteObjects
  | getBucketLocation
  | getBucketConfig (config : BucketConfig)
  | putBucketConfig (config : BucketConfig)
  | deleteBucketConfig (config : BucketConfig)
  | listMultipartUploads
  | listObjectVersions
  | listObjectsV2
  | listObjectsV1
  | getObject
  | headObject
  | putObject
  | copyObject
  | deleteObject
  | getObjectConfig (config : ObjectConfig)
  | putObjectConfig (config : ObjectConfig)
  | deleteObjectTagging
  | listParts
  | getObjectAttributes
  | createMultipartUpload
  | uploadPart
  | uploadPartCopy
  | completeMultipartUpload
  | abortMultipartUpload
  /-- `InvalidArgument` for a part number that is not a number. -/
  | invalidPartNumber
  | notImplemented
  deriving DecidableEq, Repr

variable (pairs : List (Text × Text))

def hasKey (key : Text) : Bool := pairs.any (·.1 = key)

def firstParam (key : Text) : Option Text :=
  (pairs.find? (·.1 = key)).map Prod.snd

def unimplementedGetOps : List Text :=
  ["acl", "cors", "logging", "policy", "replication", "website", "ownershipControls",
    "publicAccessBlock", "policyStatus", "accelerate", "requestPayment", "inventory", "analytics",
    "metrics", "intelligenttiering"].map String.toList

def unimplementedPutOps : List Text :=
  ["acl", "cors", "logging", "policy", "replication", "website", "accelerate", "requestPayment",
    "inventory", "analytics", "metrics", "ownershipControls", "publicAccessBlock",
    "intelligenttiering"].map String.toList

def getConfigs : List BucketConfig :=
  [.encryption, .compression, .tagging, .lifecycle, .replication, .objectLock, .notification]

def putConfigs : List BucketConfig :=
  [.encryption, .compression, .versioning, .tagging, .replication, .lifecycle, .objectLock,
    .notification]

def deleteConfigs : List BucketConfig :=
  [.tagging, .compression, .encryption, .replication, .lifecycle]

/-- The listing that a bucket's GET without a subresource is. -/
def listObjects : Operation :=
  match firstParam pairs "list-type".toList with
  | none => .listObjectsV1
  | some version => if version = "2".toList then .listObjectsV2 else .notImplemented

def getBucket : Operation :=
  if hasKey pairs "location".toList then .getBucketLocation
  else match getConfigs.find? (hasKey pairs ·.name) with
    | some config => .getBucketConfig config
    | none =>
      if unimplementedGetOps.any (hasKey pairs) then .notImplemented
      else if hasKey pairs BucketConfig.versioning.name then .getBucketConfig .versioning
      else if hasKey pairs "uploads".toList then .listMultipartUploads
      else if hasKey pairs "versions".toList then .listObjectVersions
      else listObjects pairs

variable (query : Text)

/-- A PUT is told by what its query begins with. -/
def createBucket : Operation :=
  match putConfigs.find? (·.name.isPrefixOf query) with
  | some config => .putBucketConfig config
  | none => if unimplementedPutOps.any (·.isPrefixOf query) then .notImplemented else .createBucket

def deleteBucket : Operation :=
  match deleteConfigs.find? (·.name.isPrefixOf query) with
  | some config => .deleteBucketConfig config
  | none => .deleteBucket

/-- The textual test for a subresource that POST handlers make. -/
def namesSubresource (query name : Text) : Bool :=
  query = name || query = name ++ "=".toList || (name ++ "&".toList).isPrefixOf query ||
    (name ++ "=&".toList).isPrefixOf query || query.contains ('&' :: name)

def postBucket : Operation :=
  if namesSubresource query "delete".toList then .deleteObjects else .notImplemented

def getObject : Operation :=
  if query.contains ObjectConfig.tagging.name then .getObjectConfig .tagging
  else if query.contains ObjectConfig.retention.name then .getObjectConfig .retention
  else if query.contains ObjectConfig.legalHold.name then .getObjectConfig .legalHold
  else if query.contains "uploadId".toList then .listParts
  else if query.contains "attributes".toList then .getObjectAttributes
  else .getObject

/-- A part upload, a copy or a plain PUT. -/
def putContent (copySource : Bool) : Operation :=
  match firstParam pairs "partNumber".toList, firstParam pairs "uploadId".toList with
  | some number, some _ =>
    if (Text.parseNat 10 Text.decValue (2 ^ 32) number).isNone then .invalidPartNumber
    else if copySource then .uploadPartCopy
    else .uploadPart
  | _, _ => if copySource then .copyObject else .putObject

section
variable (pairs : List (Text × Text))

def putObject (copySource : Bool) : Operation :=
  if query.contains ObjectConfig.tagging.name then .putObjectConfig .tagging
  else if query.contains ObjectConfig.retention.name then .putObjectConfig .retention
  else if query.contains ObjectConfig.legalHold.name then .putObjectConfig .legalHold
  else putContent pairs copySource

def deleteObject : Operation :=
  if query.contains ObjectConfig.tagging.name then .deleteObjectTagging
  else if hasKey pairs "uploadId".toList then .abortMultipartUpload
  else .deleteObject

def postObject : Operation :=
  if namesSubresource query "uploads".toList then .createMultipartUpload
  else if hasKey pairs "uploadId".toList then .completeMultipartUpload
  else .notImplemented

end

variable (P : Primitives)

def bucketOperation (method : Method) (query : Text) : Option Operation :=
  match method with
  | .get => some (getBucket (queryPairs P query))
  | .head => some .headBucket
  | .put => some (createBucket query)
  | .delete => some (deleteBucket query)
  | .post => some (postBucket query)
  | .other _ => none

def objectOperation (method : Method) (query : Text) (copySource : Bool) : Option Operation :=
  match method with
  | .get => some (getObject query)
  | .head => some .headObject
  | .put => some (putObject query (queryPairs P query) copySource)
  | .delete => some (deleteObject query (queryPairs P query))
  | .post => some (postObject query (queryPairs P query))
  | .other _ => none

def dispatch (target : Target) (method : Method) (query : Text) (copySource : Bool) :
    Option Operation :=
  match target with
  | .service => if target.serves method then some .listBuckets else none
  | .bucket _ => bucketOperation P method query
  | .object _ _ => objectOperation P method query copySource

def copySourceName : Text := "x-amz-copy-source".toList

def hasCopySource (headers : Headers) : Bool := (headers.get copySourceName).isSome

def operation (target : Target) (r : Request) : Option Operation :=
  dispatch P target r.method (r.uri.query.getD []) (hasCopySource r.headers)

def Operation.firstParams : Operation → List Text
  | listMultipartUploads => ["prefix", "key-marker", "upload-id-marker", "max-uploads"].map String.toList
  | listObjectVersions =>
    ["prefix", "delimiter", "key-marker", "version-id-marker", "max-keys"].map String.toList
  | listObjectsV2 =>
    ["prefix", "delimiter", "start-after", "continuation-token", "encoding-type", "fetch-owner",
      "max-keys"].map String.toList
  | listObjectsV1 => ["prefix", "delimiter", "marker", "encoding-type", "max-keys"].map String.toList
  | getObject | headObject => ["versionId", "partNumber"].map String.toList
  | deleteObject | getObjectConfig _ | putObjectConfig _ | deleteObjectTagging | getObjectAttributes =>
    ["versionId".toList]
  | listParts => ["uploadId", "max-parts", "part-number-marker"].map String.toList
  | uploadPart | uploadPartCopy => ["partNumber", "uploadId"].map String.toList
  | completeMultipartUpload | abortMultipartUpload => ["uploadId".toList]
  | _ => []

def Operation.lastParams : Operation → List Text
  | getObject =>
    ["response-cache-control", "response-content-disposition", "response-content-encoding",
      "response-content-language", "response-content-type", "response-expires"].map String.toList
  | _ => []

def Operation.paramValues (op : Operation) (pairs : List (Text × Text)) : List (Option Text) :=
  op.firstParams.map (firstParam pairs) ++ op.lastParams.map (lastParam · pairs)

/-- Normalisation of a path-style request changes neither its target nor its query. -/
lemma operation_normalize {P : Primitives} {domain : Option Text} {r : Request} (target : Target)
    (pathStyle : r.virtualHost domain = none) :
    operation P target (r.normalize domain) = operation P target r := by
  simp only [operation, Request.normalize, pathStyle, Option.map_none, Option.getD_none, query_stripSlash]

end Arca.Handlers
