import FirebaseFfi.App.Init
import FirebaseFfi.AppCheck.Listener
import FirebaseFfi.AppCheck.Provider
import FirebaseFfi.Auth.CurrentUser
import FirebaseFfi.Calls.OneShot
import FirebaseFfi.Calls.Services
import FirebaseFfi.Dart.SnapshotBuffer
import FirebaseFfi.Database.ChildTree
import FirebaseFfi.Database.FfiDataSnapshot
import FirebaseFfi.Database.Listen
import FirebaseFfi.Database.QueryChain
import FirebaseFfi.Database.RunTransaction
import FirebaseFfi.Database.ReadSnapshot
import FirebaseFfi.Database.WritesAnswered
import FirebaseFfi.Database.TransactionError
import FirebaseFfi.Database.TxnAnswers
import FirebaseFfi.Firebase.VariantEnds
import FirebaseFfi.Firebase.VariantRoundTrip
import FirebaseFfi.Firebase.VariantSize
import FirebaseFfi.Firestore.Aggregate
import FirebaseFfi.Firestore.DartRoundTrip
import FirebaseFfi.Firestore.DocumentGrammar
import FirebaseFfi.Firestore.Exceptions
import FirebaseFfi.Firestore.FieldPath
import FirebaseFfi.Firestore.PluginChain
import FirebaseFfi.Firestore.PluginRoundTrip
import FirebaseFfi.Firestore.QueryGrammar
import FirebaseFfi.Firestore.RequestsAnswered
import FirebaseFfi.Firestore.Snapshots
import FirebaseFfi.Firestore.Timestamp
import FirebaseFfi.Firestore.TransactionRun
import FirebaseFfi.Firestore.TxnRequests
import FirebaseFfi.Firestore.TxnTable
import FirebaseFfi.Firestore.Watches
import FirebaseFfi.Firestore.Writes
import FirebaseFfi.GoogleServices.Config
import FirebaseFfi.LibraryLoader.Sibling
import FirebaseFfi.RemoteConfig.Refresh
import FirebaseFfi.Storage.Entries
import FirebaseFfi.Storage.GetObject
import FirebaseFfi.Storage.InFlight
import FirebaseFfi.Storage.StorageMetadata
