import Arca.Storage.Replica

/-!
# The row swap of a re-encryption

`update_object_encryption_cas` gives a row another blob and other encryption columns,
if the row still has the blob that was read. A row with a version id is found by it; a
row without one is found by its flag.
-/
namespace Arca.ObjectTable

def swaps (bucket key : String) (version : Option String) (old : String) (r : ObjectRecord) : Bool :=
  atKey bucket key r && (match version with
    | some v => r.versionId = some v
    | none => r.isLatest) && r.blobId = old

def withBlob (new : String) (algorithm keyId : Option String) (now : Instant) (r : ObjectRecord) :
    ObjectRecord :=
  { r with
    blobId := new, encryptionAlgorithm := algorithm, encryptionKeyId := keyId
    contentUpdatedAt := some now }

def updateObjectEncryptionCas (t : ObjectTable) (bucket key : String) (version : Option String)
    (old new : String) (algorithm keyId : Option String) (now : Instant) : ObjectTable × Bool :=
  ({ t with rows := updateWhere (swaps bucket key version old) (withBlob new algorithm keyId now) t.rows },
    t.rows.any (swaps bucket key version old))

end Arca.ObjectTable
