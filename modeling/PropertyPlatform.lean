import PropertyPlatform.Async.Interleaving
import PropertyPlatform.Hash
import PropertyPlatform.Async.Transactions
import PropertyPlatform.Operations
import PropertyPlatform.AllOrNothing
import PropertyPlatform.Duplicates
import PropertyPlatform.Statuses
import PropertyPlatform.Audit
import PropertyPlatform.Idempotency
import PropertyPlatform.Receipts
import PropertyPlatform.Retries
import PropertyPlatform.CrmRecords
import PropertyPlatform.DeadLetters
import PropertyPlatform.StoredText
import PropertyPlatform.WebhookPayloads
import PropertyPlatform.Js.Utf8
import PropertyPlatform.TransactionOutcomes
import PropertyPlatform.RateLimits
import PropertyPlatform.RawPayloads
import PropertyPlatform.ColumnFit
import PropertyPlatform.Signatures
import PropertyPlatform.ListQueries
import PropertyPlatform.Cache.Flights
import PropertyPlatform.Cache.Invalidation
import PropertyPlatform.Cache.Keys
import PropertyPlatform.Cache.Clearance
